/-
The pool of shared transmit contexts (STXs) of the OFI transport: `shmem_transport_ofi_stx_allocate`, its searches, and
the part of `shmem_transport_ctx_destroy` that gives an STX back (`src/transport_ofi.c`).

Every context uses an STX. Contexts that are private to one thread share an STX of their own, found in a table from thread
to STX; the others share the rest. A private context falls back on a shared STX when none is unused, and then loses the
option that says it is private. Creations and destructions hold `shmem_transport_ofi_lock`, so each is one step. What the
code would report is logged in `faults`.

- `Inv`: reference counts, table and is_private fields agree.
- `Inv.create`, `Inv.destroy`: the steps keep it, and log nothing.
- `stx_consistent`: every state after `shmem_transport_startup`.
-/
import Mathlib.Tactic
import SandiaShmem.Core.Runs

namespace SandiaShmem.Transport.OfiStx

/-! ## Model -/

/-- `shmem_transport_ofi_stx_t` -/
structure Stx where
  ref_cnt : ℤ
  is_private : Bool
deriving DecidableEq, Repr

/-- `shmem_transport_ofi_stx_kvs_t` -/
structure Kvs (τ : Type*) where
  stx_idx : ℕ
  tid : τ

/-- what the allocator uses of a `shmem_transport_ctx_t`; `requested` remembers that it was created as a private context -/
structure Ctx (τ : Type*) where
  SHMEM_CTX_PRIVATE : Bool
  tid : τ
  /-- `none` is -1 -/
  stx_idx : Option ℕ
  requested : Bool

/-- `stx_allocator_t` -/
inductive StxAllocator where
  | ROUNDROBIN
  | RANDOM
deriving DecidableEq, Repr

/-- the parameters of a job; `threaded` is `shmem_internal_thread_level > SHMEM_THREAD_FUNNELED`, and `tid0` the tid of a
context that has not been given one -/
structure Params (τ : Type*) where
  stx_max : ℕ
  stx_threshold : ℤ
  stx_allocator : StxAllocator
  OFI_STX_DISABLE_PRIVATE : Bool
  threaded : Bool
  tid0 : τ

/-- what the code asserts or reports -/
inductive Fault where
  /-- `shmem_internal_assert(!is_private)` of an unused STX -/
  | unusedIsPrivate
  /-- `shmem_internal_assert(stx_idx >= 0)` -/
  | noIndex
  /-- "Destroyed a ctx with an inconsistent is_private field" -/
  | inconsistentPrivate
  /-- "Unable to locate private STX" -/
  | privateNotFound
deriving DecidableEq, Repr

/-- the pool, the table, `rr_start_idx`, and the contexts: the default one, and those created since -/
structure St (τ : Type*) where
  pool : ℕ → Stx
  kvs : List (Kvs τ)
  rr_start_idx : ℕ
  dflt : Ctx τ
  live : List (Ctx τ)
  faults : List Fault

/-- the live contexts -/
def St.ctxs {τ : Type*} (s : St τ) : List (Ctx τ) := s.dflt :: s.live

section
variable {τ : Type*} [DecidableEq τ] (P : Params τ)

/-- `shmem_transport_ofi_is_private` -/
def isPrivate (private_ : Bool) : Bool := !P.OFI_STX_DISABLE_PRIVATE && private_

/-- `shmem_transport_ofi_stx_search_unused` -/
def searchUnused (s : St τ) : Option ℕ := (List.range P.stx_max).find? fun i => decide ((s.pool i).ref_cnt = 0)

/-- what a search for a shared STX accepts -/
def Accepts (s : St τ) (threshold : ℤ) (i : ℕ) : Prop :=
  0 < (s.pool i).ref_cnt ∧ ((s.pool i).ref_cnt ≤ threshold ∨ threshold = -1) ∧ (s.pool i).is_private = false

instance (s : St τ) (threshold : ℤ) (i : ℕ) : Decidable (Accepts s threshold i) := inferInstanceAs (Decidable (_ ∧ _))

/-- the loop of the round-robin search: so many STXs are left, the next is i -/
def searchLoop (s : St τ) (threshold : ℤ) : ℕ → ℕ → Option ℕ
  | 0, _ => none
  | left + 1, i => if Accepts s threshold i then some i else searchLoop s threshold left ((i + 1) % P.stx_max)

/-- `shmem_transport_ofi_stx_search_shared`; at random, `probe` says on which of the STXs it accepts the probing ends -/
def searchShared (s : St τ) (threshold : ℤ) (probe : ℕ) : Option ℕ :=
  match P.stx_allocator with
  | .ROUNDROBIN => searchLoop P s threshold P.stx_max s.rr_start_idx
  | .RANDOM =>
    let found := (List.range P.stx_max).filter fun i => Accepts s threshold i
    found[probe % found.length]?

/-- the round-robin search goes on behind the STX it has found -/
def rrAfter (s : St τ) (found : Option ℕ) : ℕ :=
  match P.stx_allocator, found with
  | .ROUNDROBIN, some i => (i + 1) % P.stx_max
  | _, _ => s.rr_start_idx

/-- one more reference -/
def refInc (pool : ℕ → Stx) (i : ℕ) : ℕ → Stx := Function.update pool i { pool i with ref_cnt := (pool i).ref_cnt + 1 }

/-- one less -/
def refDec (pool : ℕ → Stx) (i : ℕ) : ℕ → Stx := Function.update pool i { pool i with ref_cnt := (pool i).ref_cnt - 1 }

def setPrivate (pool : ℕ → Stx) (i : ℕ) (b : Bool) : ℕ → Stx := Function.update pool i { pool i with is_private := b }

/-- the assertion in `shmem_transport_ofi_stx_search_unused` -/
def unusedFault (s : St τ) (found : Option ℕ) : List Fault :=
  match found with
  | some i => if (s.pool i).is_private then [.unusedIsPrivate] else []
  | none => []

/-- two searches for a shared STX, the second without a threshold -/
def searchSharedTwice (s : St τ) (probe probe' : ℕ) : Option ℕ :=
  (searchShared P s P.stx_threshold probe).or (searchShared P s (-1) probe')

/-- `shmem_transport_ofi_stx_allocate`: the state and the context after it -/
def stxAllocate (s : St τ) (ctx : Ctx τ) (probe probe' : ℕ) : St τ × Ctx τ :=
  if P.stx_max = 0 then (s, { ctx with stx_idx := none })
  else if isPrivate P ctx.SHMEM_CTX_PRIVATE then
    match s.kvs.find? fun e => decide (e.tid = ctx.tid) with
    | some f => ({ s with pool := refInc s.pool f.stx_idx }, { ctx with stx_idx := some f.stx_idx })
    | none =>
      match searchUnused P s with
      | some i =>
        ({ s with
            pool := setPrivate (refInc s.pool i) i true
            kvs := ⟨i, ctx.tid⟩ :: s.kvs
            faults := s.faults ++ unusedFault s (some i) },
          { ctx with stx_idx := some i })
      | none =>
        match searchSharedTwice P s probe probe' with
        | some i =>
          ({ s with pool := refInc s.pool i, rr_start_idx := rrAfter P s (some i) },
            { ctx with stx_idx := some i, SHMEM_CTX_PRIVATE := false })
        | none => ({ s with faults := s.faults ++ [.noIndex] }, { ctx with stx_idx := none })
  else
    match searchShared P s P.stx_threshold probe with
    | some i =>
      ({ s with pool := refInc s.pool i, rr_start_idx := rrAfter P s (some i) }, { ctx with stx_idx := some i })
    | none =>
      match searchUnused P s with
      | some i =>
        ({ s with pool := refInc s.pool i, faults := s.faults ++ unusedFault s (some i) },
          { ctx with stx_idx := some i })
      | none =>
        match searchShared P s (-1) probe' with
        | some i =>
          ({ s with pool := refInc s.pool i, rr_start_idx := rrAfter P s (some i) }, { ctx with stx_idx := some i })
        | none => ({ s with faults := s.faults ++ [.noIndex] }, { ctx with stx_idx := none })

/-- the context that `shmem_transport_ctx_create` hands to the allocator: only private contexts of threaded jobs get a
tid -/
def newCtx (private_ : Bool) (tid : τ) : Ctx τ :=
  ⟨private_, if P.threaded ∧ isPrivate P private_ then tid else P.tid0, none, isPrivate P private_⟩

/-- `shmem_transport_ctx_create`, called by the thread tid -/
def ctxCreate (s : St τ) (private_ : Bool) (tid : τ) (probe probe' : ℕ) : St τ :=
  let r := stxAllocate P s (newCtx P private_ tid) probe probe'
  { r.1 with live := r.2 :: r.1.live }

/-- the part of `shmem_transport_ctx_destroy` about the STX -/
def stxRelease (s : St τ) (ctx : Ctx τ) : St τ :=
  match ctx.stx_idx with
  | none => s
  | some i =>
    if isPrivate P ctx.SHMEM_CTX_PRIVATE then
      match s.kvs.find? fun e => decide (e.tid = ctx.tid) with
      | some e =>
        if (s.pool i).ref_cnt - 1 = 0 then
          { s with
            pool := setPrivate (refDec s.pool i) i false
            kvs := s.kvs.eraseP fun x => decide (x.tid = e.tid) }
        else { s with pool := refDec s.pool i }
      | none => { s with faults := s.faults ++ [.privateNotFound] }
    else
      { s with
        pool := refDec s.pool i
        faults := s.faults ++ if (s.pool i).is_private then [.inconsistentPrivate] else [] }

/-- `shmem_transport_ctx_destroy` of the k-th context of the list; the default context cannot be destroyed -/
def ctxDestroy (s : St τ) (k : ℕ) : St τ :=
  match s.live[k]? with
  | none => s
  | some ctx => stxRelease P { s with live := s.live.eraseIdx k } ctx

/-- a creation, by any thread with or without the option SHMEM_CTX_PRIVATE, or a destruction -/
inductive Op (τ : Type*) where
  | create (private_ : Bool) (tid : τ) (probe probe' : ℕ)
  | destroy (k : ℕ)

def step (s : St τ) : Op τ → St τ
  | .create private_ tid probe probe' => ctxCreate P s private_ tid probe probe'
  | .destroy k => ctxDestroy P s k

/-- the pool as `shmem_transport_startup` fills it, before it creates the default context -/
def emptyPool : St τ := ⟨fun _ => ⟨0, false⟩, [], 0, newCtx P false P.tid0, [], []⟩

/-- after `shmem_transport_startup`: the default context has an STX -/
def startup : St τ :=
  let r := stxAllocate P (emptyPool P) (newCtx P false P.tid0) 0 0
  { r.1 with dflt := r.2 }

/-! ## The invariant -/

/-- reference counts, table and is_private fields agree, and nothing has been reported -/
structure Inv (s : St τ) : Prop where
  /-- every context has an STX -/
  index : ∀ c ∈ s.ctxs, ∃ i < P.stx_max, c.stx_idx = some i
  /-- ref_cnt counts the contexts on an STX -/
  refs : ∀ i, (s.pool i).ref_cnt = (s.ctxs.countP fun c => decide (c.stx_idx = some i) : ℕ)
  /-- a private STX has one entry in the table, a shared one none -/
  table : ∀ i, (s.kvs.countP fun e => decide (e.stx_idx = i)) = if (s.pool i).is_private then 1 else 0
  /-- the contexts on a private STX were created as private contexts by the thread of its entry, and still are private -/
  owned : ∀ c ∈ s.ctxs, ∀ i, c.stx_idx = some i → (s.pool i).is_private = true →
    isPrivate P c.SHMEM_CTX_PRIVATE = true ∧ c.requested = true ∧ ∃ e ∈ s.kvs, e.stx_idx = i ∧ e.tid = c.tid
  /-- a private context finds its STX in the table -/
  located : ∀ c ∈ s.ctxs, isPrivate P c.SHMEM_CTX_PRIVATE = true → ∃ e ∈ s.kvs, e.tid = c.tid ∧ c.stx_idx = some e.stx_idx
  unused : ∀ i, (s.pool i).ref_cnt = 0 → (s.pool i).is_private = false
  /-- a thread has at most one entry -/
  tids : (s.kvs.map (·.tid)).Nodup
  /-- the default context is on a shared STX -/
  dflt : ∀ i, s.dflt.stx_idx = some i → (s.pool i).is_private = false
  rr : s.rr_start_idx < P.stx_max
  clean : s.faults = []

end

/-! ## Searches -/

section
variable {τ : Type*} {P : Params τ} {s : St τ}

theorem searchUnused_some {i : ℕ} (h : searchUnused P s = some i) : i < P.stx_max ∧ (s.pool i).ref_cnt = 0 := by
  have hmem := List.mem_of_find?_eq_some h
  have hp := List.find?_some h
  exact ⟨List.mem_range.mp hmem, by simpa using hp⟩

theorem searchLoop_some {threshold : ℤ} {i : ℕ} (left : ℕ) :
    ∀ j < P.stx_max, searchLoop P s threshold left j = some i → i < P.stx_max ∧ Accepts s threshold i := by
  induction left with
  | zero => intro j _ h; exact absurd h (by simp [searchLoop])
  | succ left ih =>
    intro j hj h
    rw [searchLoop] at h
    split_ifs at h with ha
    · simp only [Option.some.injEq] at h
      subst h
      exact ⟨hj, ha⟩
    · exact ih _ (Nat.mod_lt _ (by omega)) h

/-- a search that finds nothing has looked at all of its STXs -/
theorem searchLoop_none {threshold : ℤ} (left : ℕ) :
    ∀ j < P.stx_max, searchLoop P s threshold left j = none → ∀ k < left, ¬ Accepts s threshold ((j + k) % P.stx_max) := by
  induction left with
  | zero => intro j _ _ k hk; omega
  | succ left ih =>
    intro j hj h k hk
    rw [searchLoop] at h
    split_ifs at h with ha
    cases k with
    | zero => rwa [Nat.add_zero, Nat.mod_eq_of_lt hj]
    | succ k =>
      have := ih _ (Nat.mod_lt _ (by omega)) h k (by omega)
      rwa [Nat.mod_add_mod, show j + 1 + k = j + (k + 1) by omega] at this

theorem searchShared_some {threshold : ℤ} {probe i : ℕ} (hrr : s.rr_start_idx < P.stx_max)
    (h : searchShared P s threshold probe = some i) : i < P.stx_max ∧ Accepts s threshold i := by
  unfold searchShared at h
  split at h
  · exact searchLoop_some _ _ hrr h
  · have hmem := List.mem_of_getElem? h
    rw [List.mem_filter, List.mem_range] at hmem
    exact ⟨hmem.1, by simpa using hmem.2⟩

theorem searchShared_none {threshold : ℤ} {probe : ℕ} (hrr : s.rr_start_idx < P.stx_max)
    (h : searchShared P s threshold probe = none) {i : ℕ} (hi : i < P.stx_max) : ¬ Accepts s threshold i := by
  unfold searchShared at h
  split at h
  · -- going around from the start reaches every STX
    have hk : (s.rr_start_idx + (i + P.stx_max - s.rr_start_idx) % P.stx_max) % P.stx_max = i := by
      rw [Nat.add_mod_mod, show s.rr_start_idx + (i + P.stx_max - s.rr_start_idx) = i + P.stx_max by omega,
        Nat.add_mod_right, Nat.mod_eq_of_lt hi]
    have := searchLoop_none _ _ hrr h _ (Nat.mod_lt (i + P.stx_max - s.rr_start_idx) (by omega))
    rwa [hk] at this
  · intro ha
    have hmem : i ∈ (List.range P.stx_max).filter fun i => Accepts s threshold i := by
      rw [List.mem_filter, List.mem_range]
      exact ⟨hi, by simpa using ha⟩
    have hlen := List.length_pos_of_mem hmem
    rw [List.getElem?_eq_none_iff] at h
    have := Nat.mod_lt probe hlen
    omega

theorem rrAfter_lt {i : ℕ} (hrr : s.rr_start_idx < P.stx_max) : rrAfter P s (some i) < P.stx_max := by
  unfold rrAfter
  split
  · exact Nat.mod_lt _ (by omega)
  · exact hrr

/-! ## The pool -/

theorem refInc_apply (pool : ℕ → Stx) (i j : ℕ) :
    refInc pool i j = ⟨(pool j).ref_cnt + (if i = j then 1 else 0), (pool j).is_private⟩ := by
  unfold refInc
  by_cases h : i = j
  · subst h; simp
  · simp [h, Ne.symm h]

theorem refDec_apply (pool : ℕ → Stx) (i j : ℕ) :
    refDec pool i j = ⟨(pool j).ref_cnt - (if i = j then 1 else 0), (pool j).is_private⟩ := by
  unfold refDec
  by_cases h : i = j
  · subst h; simp
  · simp [h, Ne.symm h]

theorem setPrivate_apply (pool : ℕ → Stx) (i j : ℕ) (b : Bool) :
    setPrivate pool i b j = ⟨(pool j).ref_cnt, if i = j then b else (pool j).is_private⟩ := by
  unfold setPrivate
  by_cases h : i = j
  · subst h; simp
  · simp [h, Ne.symm h]

/-! ## What the invariant says about a table entry -/

variable (h : Inv P s)
include h

/-- the STX of an entry is private -/
theorem Inv.entry_private {e : Kvs τ} (he : e ∈ s.kvs) : (s.pool e.stx_idx).is_private = true := by
  have htab := h.table e.stx_idx
  have hpos : 0 < s.kvs.countP fun x => decide (x.stx_idx = e.stx_idx) :=
    List.countP_pos_iff.mpr ⟨e, he, by simp⟩
  by_contra hp
  rw [if_neg hp] at htab
  omega

/-- somebody uses it -/
theorem Inv.entry_lt {e : Kvs τ} (he : e ∈ s.kvs) : e.stx_idx < P.stx_max := by
  have hpriv := h.entry_private he
  have hne : (s.pool e.stx_idx).ref_cnt ≠ 0 := by
    intro h0
    rw [h.unused _ h0] at hpriv
    exact absurd hpriv (by decide)
  have hpos : 0 < s.ctxs.countP fun c => decide (c.stx_idx = some e.stx_idx) := by
    rw [h.refs] at hne
    exact Nat.pos_of_ne_zero fun h0 => hne (by rw [h0]; rfl)
  obtain ⟨c, hc, hidx⟩ := List.countP_pos_iff.mp hpos
  obtain ⟨i, hi, hci⟩ := h.index c hc
  simp only [decide_eq_true_eq] at hidx
  rw [hci, Option.some.injEq] at hidx
  exact hidx ▸ hi

/-- it is the only entry of its thread -/
theorem Inv.entry_unique {e e' : Kvs τ} (he : e ∈ s.kvs) (he' : e' ∈ s.kvs) (ht : e.tid = e'.tid) : e = e' :=
  List.inj_on_of_nodup_map h.tids he he' ht

end

/-! ## A new context -/

section
variable {τ : Type*} {P : Params τ} {s : St τ}

theorem mem_ctxs_cons {c c' : Ctx τ} :
    c' ∈ ({ s with live := c :: s.live } : St τ).ctxs ↔ c' = c ∨ c' ∈ s.ctxs := by
  simp only [St.ctxs, List.mem_cons]
  tauto

/-- it counts -/
theorem countP_ctxs_cons (c : Ctx τ) (i : ℕ) :
    (({ s with live := c :: s.live } : St τ).ctxs.countP fun c => decide (c.stx_idx = some i)) =
      (s.ctxs.countP fun c => decide (c.stx_idx = some i)) + if c.stx_idx = some i then 1 else 0 := by
  simp only [St.ctxs, List.countP_cons, decide_eq_true_eq]
  omega

variable (h : Inv P s)
include h

theorem Inv.refs_cons {c : Ctx τ} {i : ℕ} (hc : c.stx_idx = some i) (j : ℕ) :
    (refInc s.pool i j).ref_cnt =
      (({ s with live := c :: s.live } : St τ).ctxs.countP fun c => decide (c.stx_idx = some j) : ℕ) := by
  rw [refInc_apply, h.refs, countP_ctxs_cons, hc]
  simp only [Option.some.injEq]
  split_ifs <;> simp

theorem Inv.ref_nonneg (j : ℕ) : 0 ≤ (s.pool j).ref_cnt := by
  rw [h.refs]
  exact Int.natCast_nonneg _

/-- it uses a shared STX -/
theorem Inv.join {i rr : ℕ} {c : Ctx τ} (hi : i < P.stx_max) (hs : (s.pool i).is_private = false)
    (hc : c.stx_idx = some i) (hp : isPrivate P c.SHMEM_CTX_PRIVATE = false) (hrr : rr < P.stx_max) :
    Inv P { s with pool := refInc s.pool i, rr_start_idx := rr, live := c :: s.live } := by
  have hpriv : ∀ j, (refInc s.pool i j).is_private = (s.pool j).is_private := fun j => by rw [refInc_apply]
  refine ⟨?_, h.refs_cons hc, ?_, ?_, ?_, ?_, h.tids, ?_, hrr, h.clean⟩
  · intro c' hc'
    rcases mem_ctxs_cons.mp hc' with rfl | hc'
    · exact ⟨i, hi, hc⟩
    · exact h.index c' hc'
  · intro j
    simp only [hpriv]
    exact h.table j
  · intro c' hc' j hj hpj
    simp only [hpriv] at hpj
    rcases mem_ctxs_cons.mp hc' with rfl | hc'
    · rw [hc, Option.some.injEq] at hj
      rw [← hj, hs] at hpj
      exact absurd hpj (by decide)
    · exact h.owned c' hc' j hj hpj
  · intro c' hc' hp'
    rcases mem_ctxs_cons.mp hc' with rfl | hc'
    · rw [hp] at hp'
      exact absurd hp' (by decide)
    · exact h.located c' hc' hp'
  · intro j hj
    have hnn := h.ref_nonneg j
    simp only [refInc_apply] at hj ⊢
    refine h.unused j ?_
    split_ifs at hj <;> omega
  · intro j hj
    simp only [hpriv]
    exact h.dflt j hj

/-- it is private, and its thread has an STX -/
theorem Inv.join_private {e : Kvs τ} {c : Ctx τ} (he : e ∈ s.kvs) (hc : c.stx_idx = some e.stx_idx)
    (hp : isPrivate P c.SHMEM_CTX_PRIVATE = true) (hreq : c.requested = true) (ht : e.tid = c.tid) :
    Inv P { s with pool := refInc s.pool e.stx_idx, live := c :: s.live } := by
  have hpriv : ∀ j, (refInc s.pool e.stx_idx j).is_private = (s.pool j).is_private := fun j => by rw [refInc_apply]
  refine ⟨?_, h.refs_cons hc, ?_, ?_, ?_, ?_, h.tids, ?_, h.rr, h.clean⟩
  · intro c' hc'
    rcases mem_ctxs_cons.mp hc' with rfl | hc'
    · exact ⟨_, h.entry_lt he, hc⟩
    · exact h.index c' hc'
  · intro j
    simp only [hpriv]
    exact h.table j
  · intro c' hc' j hj hpj
    simp only [hpriv] at hpj
    rcases mem_ctxs_cons.mp hc' with rfl | hc'
    · rw [hc, Option.some.injEq] at hj
      exact ⟨hp, hreq, e, he, hj, ht⟩
    · exact h.owned c' hc' j hj hpj
  · intro c' hc' hp'
    rcases mem_ctxs_cons.mp hc' with rfl | hc'
    · exact ⟨e, he, ht, hc⟩
    · exact h.located c' hc' hp'
  · intro j hj
    have hnn := h.ref_nonneg j
    simp only [refInc_apply] at hj ⊢
    refine h.unused j ?_
    split_ifs at hj <;> omega
  · intro j hj
    simp only [hpriv]
    exact h.dflt j hj

/-- nobody uses an unused STX -/
theorem Inv.not_used {i : ℕ} (h0 : (s.pool i).ref_cnt = 0) {c : Ctx τ} (hc : c ∈ s.ctxs) : c.stx_idx ≠ some i := by
  intro hci
  rw [h.refs] at h0
  have hpos : 0 < s.ctxs.countP fun c => decide (c.stx_idx = some i) :=
    List.countP_pos_iff.mpr ⟨c, hc, by simpa using hci⟩
  omega

/-- it is private, and its thread gets an unused STX -/
theorem Inv.open_private {i : ℕ} {c : Ctx τ} (hi : i < P.stx_max) (h0 : (s.pool i).ref_cnt = 0)
    (hc : c.stx_idx = some i) (hp : isPrivate P c.SHMEM_CTX_PRIVATE = true) (hreq : c.requested = true)
    (ht : ∀ e ∈ s.kvs, e.tid ≠ c.tid) :
    Inv P { s with
      pool := setPrivate (refInc s.pool i) i true
      kvs := ⟨i, c.tid⟩ :: s.kvs
      live := c :: s.live } := by
  have hnew : ∀ j, (setPrivate (refInc s.pool i) i true j).is_private = if i = j then true else (s.pool j).is_private := by
    intro j
    rw [setPrivate_apply, refInc_apply]
  have href : ∀ j, (setPrivate (refInc s.pool i) i true j).ref_cnt = (refInc s.pool i j).ref_cnt := by
    intro j
    rw [setPrivate_apply]
  refine ⟨?_, ?_, ?_, ?_, ?_, ?_, ?_, ?_, h.rr, h.clean⟩
  · intro c' hc'
    rcases mem_ctxs_cons.mp hc' with rfl | hc'
    · exact ⟨i, hi, hc⟩
    · exact h.index c' hc'
  · intro j
    simp only [href]
    exact h.refs_cons hc j
  · intro j
    have htab := h.table j
    simp only [hnew, List.countP_cons, decide_eq_true_eq]
    by_cases hij : i = j
    · subst hij
      rw [h.unused i h0] at htab
      simpa using htab
    · simpa [hij] using htab
  · intro c' hc' j hj hpj
    simp only [hnew] at hpj
    rcases mem_ctxs_cons.mp hc' with rfl | hc'
    · rw [hc, Option.some.injEq] at hj
      exact ⟨hp, hreq, _, List.mem_cons_self, hj, rfl⟩
    · have hij : i ≠ j := fun heq => h.not_used h0 hc' (heq ▸ hj)
      rw [if_neg hij] at hpj
      obtain ⟨h1, h2, e, he, h3⟩ := h.owned c' hc' j hj hpj
      exact ⟨h1, h2, e, List.mem_cons_of_mem _ he, h3⟩
  · intro c' hc' hp'
    rcases mem_ctxs_cons.mp hc' with rfl | hc'
    · exact ⟨_, List.mem_cons_self, rfl, hc⟩
    · obtain ⟨e, he, h1⟩ := h.located c' hc' hp'
      exact ⟨e, List.mem_cons_of_mem _ he, h1⟩
  · intro j hj
    have hnn := h.ref_nonneg j
    simp only [href, refInc_apply] at hj
    simp only [hnew]
    split_ifs at hj ⊢ with hij
    · omega
    · exact h.unused j (by omega)
  · rw [List.map_cons, List.nodup_cons]
    refine ⟨?_, h.tids⟩
    intro hmem
    obtain ⟨e, he, heq⟩ := List.mem_map.mp hmem
    exact ht e he heq
  · intro j hj
    have hij : i ≠ j := fun heq => h.not_used h0 List.mem_cons_self (heq ▸ hj)
    simp only [hnew, if_neg hij]
    exact h.dflt j hj

end

/-! ## A context goes -/

section
variable {τ : Type*} {P : Params τ} {s : St τ} {k : ℕ} {c : Ctx τ}

theorem mem_ctxs_eraseIdx {c' : Ctx τ} (hc' : c' ∈ ({ s with live := s.live.eraseIdx k } : St τ).ctxs) : c' ∈ s.ctxs := by
  rcases List.mem_cons.mp hc' with rfl | hc'
  · exact List.mem_cons_self
  · exact List.mem_cons_of_mem _ (List.mem_of_mem_eraseIdx hc')

/-- it no longer counts -/
theorem countP_ctxs_eraseIdx (hk : s.live[k]? = some c) (i : ℕ) :
    (({ s with live := s.live.eraseIdx k } : St τ).ctxs.countP fun c => decide (c.stx_idx = some i)) +
      (if c.stx_idx = some i then 1 else 0) = s.ctxs.countP fun c => decide (c.stx_idx = some i) := by
  obtain ⟨hlt, hget⟩ := List.getElem?_eq_some_iff.mp hk
  have hperm := (List.getElem_cons_eraseIdx_perm hlt).countP_eq fun c => decide (c.stx_idx = some i)
  rw [List.countP_cons, hget] at hperm
  simp only [decide_eq_true_eq] at hperm
  simp only [St.ctxs, List.countP_cons]
  omega

theorem mem_ctxs_of_getElem (hk : s.live[k]? = some c) : c ∈ s.ctxs :=
  List.mem_cons_of_mem _ (List.mem_of_getElem? hk)

variable (h : Inv P s) (hk : s.live[k]? = some c)
include h hk

theorem Inv.refs_eraseIdx {i : ℕ} (hc : c.stx_idx = some i) (j : ℕ) :
    (refDec s.pool i j).ref_cnt =
      (({ s with live := s.live.eraseIdx k } : St τ).ctxs.countP fun c => decide (c.stx_idx = some j) : ℕ) := by
  have hcount := countP_ctxs_eraseIdx hk j
  rw [refDec_apply, h.refs, ← hcount, hc]
  simp only [Option.some.injEq]
  split_ifs <;> simp

/-- others stay on its STX, or the STX is shared -/
theorem Inv.leave {i : ℕ} (hc : c.stx_idx = some i)
    (hstay : (s.pool i).is_private = false ∨ (s.pool i).ref_cnt - 1 ≠ 0) :
    Inv P { s with pool := refDec s.pool i, live := s.live.eraseIdx k } := by
  have hpriv : ∀ j, (refDec s.pool i j).is_private = (s.pool j).is_private := fun j => by rw [refDec_apply]
  refine ⟨?_, h.refs_eraseIdx hk hc, ?_, ?_, ?_, ?_, h.tids, ?_, h.rr, h.clean⟩
  · intro c' hc'
    exact h.index c' (mem_ctxs_eraseIdx hc')
  · intro j
    simp only [hpriv]
    exact h.table j
  · intro c' hc' j hj hpj
    simp only [hpriv] at hpj
    exact h.owned c' (mem_ctxs_eraseIdx hc') j hj hpj
  · intro c' hc' hp'
    exact h.located c' (mem_ctxs_eraseIdx hc') hp'
  · intro j hj
    simp only [refDec_apply] at hj ⊢
    split_ifs at hj with hij
    · subst hij
      exact hstay.resolve_right fun hne => hne hj
    · exact h.unused j (by omega)
  · intro j hj
    simp only [hpriv]
    exact h.dflt j hj

/-- it was the last on its private STX -/
theorem Inv.close {i : ℕ} [DecidableEq τ] {e : Kvs τ} (hc : c.stx_idx = some i) (he : e ∈ s.kvs)
    (hei : e.stx_idx = i) (hlast : (s.pool i).ref_cnt - 1 = 0) :
    Inv P { s with
      pool := setPrivate (refDec s.pool i) i false
      kvs := s.kvs.eraseP fun x => decide (x.tid = e.tid)
      live := s.live.eraseIdx k } := by
  have hnew : ∀ j, (setPrivate (refDec s.pool i) i false j).is_private =
      if i = j then false else (s.pool j).is_private := by
    intro j
    rw [setPrivate_apply, refDec_apply]
  have href : ∀ j, (setPrivate (refDec s.pool i) i false j).ref_cnt = (refDec s.pool i j).ref_cnt := by
    intro j
    rw [setPrivate_apply]
  -- the entry that goes is e
  obtain ⟨a, l1, l2, -, hpa, hkvs, herase⟩ := List.exists_of_eraseP (p := fun x => decide (x.tid = e.tid)) he (by simp)
  have hae : a = e := by
    refine h.entry_unique ?_ he (by simpa using hpa)
    rw [hkvs]
    simp
  subst hae
  have hkeep : ∀ x ∈ s.kvs, x.stx_idx ≠ i → x ∈ s.kvs.eraseP fun x => decide (x.tid = a.tid) := by
    intro x hx hxi
    rw [herase]
    rw [hkvs] at hx
    rcases List.mem_append.mp hx with hx | hx
    · exact List.mem_append_left _ hx
    · rcases List.mem_cons.mp hx with rfl | hx
      · exact absurd hei hxi
      · exact List.mem_append_right _ hx
  -- nobody is left on the STX
  have hnone : ∀ c' ∈ ({ s with live := s.live.eraseIdx k } : St τ).ctxs, c'.stx_idx ≠ some i := by
    intro c' hc' hci
    have hcount := h.refs_eraseIdx hk hc i
    simp only [refDec_apply, if_true, hlast] at hcount
    have hpos := List.countP_pos_iff (p := fun c : Ctx τ => decide (c.stx_idx = some i)).mpr ⟨c', hc', by simpa using hci⟩
    omega
  refine ⟨?_, ?_, ?_, ?_, ?_, ?_, ?_, ?_, h.rr, h.clean⟩
  · intro c' hc'
    exact h.index c' (mem_ctxs_eraseIdx hc')
  · intro j
    simp only [href]
    exact h.refs_eraseIdx hk hc j
  · intro j
    have htab := h.table j
    simp only [hnew, herase]
    rw [hkvs, List.countP_append, List.countP_cons] at htab
    rw [List.countP_append]
    have hpriv := h.entry_private he
    rw [hei] at hpriv
    by_cases hij : i = j
    · subst hij
      rw [if_pos hpriv] at htab
      simp only [hei, decide_true, if_true] at htab
      simp only [if_true, Bool.false_eq_true, if_false]
      omega
    · simp only [hei, hij, decide_false, Bool.false_eq_true, if_false] at htab
      simp only [if_neg hij]
      omega
  · intro c' hc' j hj hpj
    simp only [hnew] at hpj
    have hij : i ≠ j := fun heq => hnone c' hc' (heq ▸ hj)
    rw [if_neg hij] at hpj
    obtain ⟨h1, h2, x, hx, hxi, hxt⟩ := h.owned c' (mem_ctxs_eraseIdx hc') j hj hpj
    exact ⟨h1, h2, x, hkeep x hx (hxi ▸ hij.symm), hxi, hxt⟩
  · intro c' hc' hp'
    obtain ⟨x, hx, hxt, hxi⟩ := h.located c' (mem_ctxs_eraseIdx hc') hp'
    exact ⟨x, hkeep x hx fun heq => hnone c' hc' (heq ▸ hxi), hxt, hxi⟩
  · intro j hj
    simp only [href, refDec_apply] at hj
    simp only [hnew]
    split_ifs at hj ⊢ with hij
    · rfl
    · exact h.unused j (by omega)
  · exact h.tids.sublist (List.eraseP_sublist.map _)
  · intro j hj
    simp only [hnew]
    split_ifs
    · rfl
    · exact h.dflt j hj

end

/-! ## Steps -/

section
variable {τ : Type*} [DecidableEq τ] {P : Params τ} {s : St τ}

theorem find_tid {tid : τ} {e : Kvs τ} (hf : (s.kvs.find? fun e => decide (e.tid = tid)) = some e) :
    e ∈ s.kvs ∧ e.tid = tid :=
  ⟨List.mem_of_find?_eq_some hf, by simpa using List.find?_some hf⟩

variable (h : Inv P s)
include h

omit [DecidableEq τ] in
/-- a search without a threshold finds the STX of the default context, if no other -/
theorem Inv.shared_found (probe : ℕ) : searchShared P s (-1) probe ≠ none := by
  intro hnone
  obtain ⟨i, hi, hidx⟩ := h.index s.dflt List.mem_cons_self
  refine searchShared_none h.rr hnone hi ⟨?_, Or.inr rfl, h.dflt i hidx⟩
  rw [h.refs]
  exact Int.natCast_pos.mpr (List.countP_pos_iff.mpr ⟨s.dflt, List.mem_cons_self, by simpa using hidx⟩)

omit [DecidableEq τ] in
theorem Inv.no_fault {i : ℕ} (h0 : (s.pool i).ref_cnt = 0) : s.faults ++ unusedFault s (some i) = s.faults := by
  simp [unusedFault, h.unused i h0]

/-- **Creation.** It finds an STX, and keeps the invariant. -/
theorem Inv.create (private_ : Bool) (tid : τ) (probe probe' : ℕ) : Inv P (ctxCreate P s private_ tid probe probe') := by
  have hmax : P.stx_max ≠ 0 := by
    have := h.rr
    omega
  have hopt : (newCtx P private_ tid).SHMEM_CTX_PRIVATE = private_ := rfl
  have hreq : (newCtx P private_ tid).requested = isPrivate P private_ := rfl
  unfold ctxCreate stxAllocate
  rw [if_neg hmax, hopt]
  by_cases hp : isPrivate P private_ = true
  · rw [if_pos hp]
    rw [hp] at hreq
    cases hf : s.kvs.find? fun e => decide (e.tid = (newCtx P private_ tid).tid) with
    | some f =>
      obtain ⟨hmem, htid⟩ := find_tid hf
      exact h.join_private hmem rfl hp hreq htid
    | none =>
      cases hu : searchUnused P s with
      | some i =>
        obtain ⟨hi, h0⟩ := searchUnused_some hu
        dsimp only
        rw [h.no_fault h0]
        refine h.open_private (c := { newCtx P private_ tid with stx_idx := some i }) hi h0 rfl hp hreq ?_
        intro e he
        have := List.find?_eq_none.mp hf e he
        simpa using this
      | none =>
        -- the fallback: the context is shared from now on
        have hcleared : isPrivate P false = false := by simp [isPrivate]
        cases hs : searchSharedTwice P s probe probe' with
        | some i =>
          obtain ⟨hi, hacc⟩ : i < P.stx_max ∧ (s.pool i).is_private = false := by
            unfold searchSharedTwice at hs
            cases h1 : searchShared P s P.stx_threshold probe with
            | some j =>
              rw [h1, Option.some_or, Option.some.injEq] at hs
              subst hs
              have := searchShared_some h.rr h1
              exact ⟨this.1, this.2.2.2⟩
            | none =>
              rw [h1, Option.none_or] at hs
              have := searchShared_some h.rr hs
              exact ⟨this.1, this.2.2.2⟩
          exact h.join hi hacc rfl hcleared (rrAfter_lt h.rr)
        | none =>
          unfold searchSharedTwice at hs
          exact absurd (Option.or_eq_none_iff.mp hs).2 (h.shared_found probe')
  · rw [if_neg hp]
    rw [Bool.not_eq_true] at hp
    cases h1 : searchShared P s P.stx_threshold probe with
    | some i =>
      obtain ⟨hi, hacc⟩ := searchShared_some h.rr h1
      exact h.join hi hacc.2.2 rfl hp (rrAfter_lt h.rr)
    | none =>
      cases hu : searchUnused P s with
      | some i =>
        obtain ⟨hi, h0⟩ := searchUnused_some hu
        dsimp only
        rw [h.no_fault h0]
        exact h.join (c := { newCtx P private_ tid with stx_idx := some i }) hi (h.unused i h0) rfl hp h.rr
      | none =>
        cases h2 : searchShared P s (-1) probe' with
        | some i =>
          obtain ⟨hi, hacc⟩ := searchShared_some h.rr h2
          exact h.join hi hacc.2.2 rfl hp (rrAfter_lt h.rr)
        | none => exact absurd h2 (h.shared_found probe')

/-- **Destruction.** It keeps the invariant. -/
theorem Inv.destroy (k : ℕ) : Inv P (ctxDestroy P s k) := by
  unfold ctxDestroy
  cases hk : s.live[k]? with
  | none => exact h
  | some c =>
    have hmem := mem_ctxs_of_getElem hk
    obtain ⟨i, -, hci⟩ := h.index c hmem
    dsimp only [stxRelease]
    rw [hci]
    dsimp only
    by_cases hp : isPrivate P c.SHMEM_CTX_PRIVATE = true
    · rw [if_pos hp]
      obtain ⟨e, he, het, hei⟩ := h.located c hmem hp
      rw [hci, Option.some.injEq] at hei
      cases hf : s.kvs.find? fun e => decide (e.tid = c.tid) with
      | none => exact absurd (List.find?_eq_none.mp hf e he) (by simpa using het)
      | some f =>
        obtain ⟨hfm, hft⟩ := find_tid hf
        have hfe : f = e := h.entry_unique hfm he (hft.trans het.symm)
        subst hfe
        dsimp only
        split_ifs with hlast
        · exact h.close hk hci hfm hei.symm hlast
        · exact h.leave hk hci (Or.inr hlast)
    · rw [if_neg hp]
      have hshared : (s.pool i).is_private = false := by
        by_contra hpi
        exact hp (h.owned c hmem i hci (by simpa using hpi)).1
      simp only [hshared, Bool.false_eq_true, if_false, List.append_nil]
      exact h.leave hk hci (Or.inl hshared)

theorem Inv.step (o : Op τ) : Inv P (step P s o) := by
  cases o with
  | create private_ tid probe probe' => exact h.create private_ tid probe probe'
  | destroy k => exact h.destroy k

end

/-! ## Startup -/

section
variable {τ : Type*} [DecidableEq τ] {P : Params τ}

/-- the default context gets STX 0 -/
theorem startup_eq (hmax : 0 < P.stx_max) :
    startup P = { emptyPool P with
      pool := refInc (emptyPool P).pool 0
      dflt := { newCtx P false P.tid0 with stx_idx := some 0 } } := by
  have hnp : isPrivate P (newCtx P false P.tid0).SHMEM_CTX_PRIVATE = false := by simp [isPrivate, newCtx]
  have hs : searchShared P (emptyPool P) P.stx_threshold 0 = none := by
    cases hs : searchShared P (emptyPool P) P.stx_threshold 0 with
    | none => rfl
    | some i =>
      have hacc := (searchShared_some (s := emptyPool P) hmax hs).2.1
      exact absurd hacc (by simp [emptyPool])
  have hu : searchUnused P (emptyPool P) = some 0 := by
    obtain ⟨n, hn⟩ : ∃ n, P.stx_max = n + 1 := ⟨P.stx_max - 1, by omega⟩
    simp [searchUnused, emptyPool, hn, List.range_succ_eq_map]
  have hf : unusedFault (emptyPool P) (some 0) = [] := by simp [unusedFault, emptyPool]
  unfold startup stxAllocate
  rw [if_neg (by omega), if_neg (by simp [hnp]), hs, hu]
  simp only [hf, List.append_nil]

theorem inv_startup (hmax : 0 < P.stx_max) : Inv P (startup P) := by
  have hpool : ∀ i, ((startup P).pool i).is_private = false := by
    intro i
    rw [startup_eq hmax]
    simp only [refInc_apply, emptyPool]
  refine ⟨?_, ?_, ?_, ?_, ?_, fun i _ => hpool i, ?_, fun i _ => hpool i, ?_, ?_⟩
  · intro c hc
    rw [startup_eq hmax] at hc
    simp only [St.ctxs, emptyPool, List.mem_singleton] at hc
    exact ⟨0, hmax, by rw [hc]⟩
  · intro i
    rw [startup_eq hmax]
    simp only [refInc_apply, St.ctxs, emptyPool, List.countP_cons, List.countP_nil, decide_eq_true_eq,
      Option.some.injEq]
    split_ifs <;> simp
  · intro i
    rw [hpool i, startup_eq hmax]
    simp [emptyPool]
  · intro c _ i _ hp
    rw [hpool i] at hp
    exact absurd hp (by decide)
  · intro c hc hp
    rw [startup_eq hmax] at hc
    simp only [St.ctxs, emptyPool, List.mem_singleton] at hc
    subst hc
    exact absurd hp (by simp [isPrivate, newCtx])
  · rw [startup_eq hmax]
    simp [emptyPool]
  · rw [startup_eq hmax]
    exact hmax
  · rw [startup_eq hmax]
    rfl

/-- **The STX allocator is consistent.** For all parameters with at least one STX and every sequence of creations and
destructions after startup: the invariant holds, so that reference counts, table and is_private fields agree and nothing
has been reported. -/
theorem stx_consistent (P : Params τ) (hmax : 0 < P.stx_max) (ops : List (Op τ)) :
    Inv P (Runs.run (step P) (startup P) ops) :=
  Runs.run_inv (step P) (Inv P) (fun _ o h => h.step o) (startup P) (inv_startup hmax) ops

end

/-- two STXs and a threaded job -/
def twoStxs : Params ℕ := ⟨2, 1, .ROUNDROBIN, false, true, 0⟩

/-- thread 1 gets the STX that is left; the private context of thread 2 has to share -/
def twoThreads : List (Op ℕ) := [.create true 1 0 0, .create true 2 0 0, .create true 1 0 0, .destroy 2]

theorem stx_consistent_fallback :
    ((Runs.run (step twoStxs) (startup twoStxs) twoThreads).pool 1).is_private = true ∧
      ((Runs.run (step twoStxs) (startup twoStxs) twoThreads).pool 0).ref_cnt = 2 ∧
      Inv twoStxs (Runs.run (step twoStxs) (startup twoStxs) twoThreads) :=
  ⟨by decide, by decide, stx_consistent twoStxs (by decide) twoThreads⟩

end SandiaShmem.Transport.OfiStx
