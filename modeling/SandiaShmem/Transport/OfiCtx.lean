/-
Creation of a context in the OFI transport, and what it leaves behind when a libfabric call fails (`src/transport_ofi.c`).

The creation holds shmem_transport_ofi_lock. It opens counters, queue and endpoint, takes an STX, and binds and enables the
endpoint; when one of these fails it calls shmem_transport_ctx_destroy for what there is. Destroying a context gives the
STX back and clears its entry of team->contexts, and takes shmem_transport_ofi_lock for both.

- `ctxCreate_success`: a creation that succeeds is a creation of the STX pool's model.
- `release_allocate_iff`: when giving the STX back undoes taking it.
- `ctx_create_failure_iff`: a failed creation is atomic exactly where the mutexes do nothing and the STX that was taken, if
  any, was consistent before.
- `fits_of_inv`: as all are in the states that creations and destructions reach.
-/
import SandiaShmem.Transport.OfiStx
import SandiaShmem.Transport.Contexts

namespace SandiaShmem.Transport.OfiCtx

open OfiStx Contexts

/-! ## Model -/

/-- the libfabric calls of `shmem_transport_ofi_ctx_init` and `bind_enable_ep_resources` -/
inductive FiCall where
  | put_cntr_open
  | get_cntr_open
  | cq_open
  | endpoint
  | bind_stx
  | bind_put_cntr
  | bind_get_cntr
  | bind_cq
  | bind_av
  | enable
deriving DecidableEq, Repr

/-- the calls before an STX is taken -/
def openCalls : List FiCall := [.put_cntr_open, .get_cntr_open, .cq_open, .endpoint]

/-- `bind_enable_ep_resources` -/
def bindCalls (stx_idx : Option ℕ) : List FiCall :=
  (if stx_idx.isSome then [.bind_stx] else []) ++ [.bind_put_cntr, .bind_get_cntr, .bind_cq, .bind_av, .enable]

/-- the calls are made until one returns an error, which is returned -/
def firstError (fi : FiCall → ℤ) : List FiCall → ℤ
  | [] => 0
  | c :: cs => if fi c ≠ 0 then fi c else firstError fi cs

/-- a job: the parameters of the STX pool, and its threads -/
structure Job (τ : Type*) where
  stx : Params τ
  threads : Threads
  threaded_eq : stx.threaded = (decide (threads.level = .SERIALIZED) || decide (threads.level = .MULTIPLE))

/-- the state in a creation: the STX pool, team->contexts, and whether the caller holds shmem_transport_ofi_lock -/
structure St (τ : Type*) where
  stx : OfiStx.St τ
  contexts : List (Option (Ctx τ))
  held : Bool

/-- what a call is given: options, the tid of the caller, and where random probing ends -/
structure Request (τ : Type*) where
  SHMEM_CTX_PRIVATE : Bool
  tid : τ
  probe : ℕ
  probe' : ℕ

section
variable {τ : Type*} [DecidableEq τ] (J : Job τ)

/-- the context as `shmem_transport_ctx_create` fills it -/
def blankCtx (q : Request τ) : Ctx τ :=
  ⟨q.SHMEM_CTX_PRIVATE, J.stx.tid0, none, isPrivate J.stx q.SHMEM_CTX_PRIVATE⟩

/-- `shmem_transport_ofi_ctx_init`: the code it returns, the state and the context after it -/
def ctxInit (s : St τ) (q : Request τ) (fi : FiCall → ℤ) : ℤ × St τ × Ctx τ :=
  if firstError fi openCalls ≠ 0 then (firstError fi openCalls, s, blankCtx J q)
  else
    let r := stxAllocate J.stx s.stx (newCtx J.stx q.SHMEM_CTX_PRIVATE q.tid) q.probe q.probe'
    (firstError fi (bindCalls r.2.stx_idx), { s with stx := r.1 }, r.2)

/-- the first locked part of `shmem_transport_ctx_destroy` -/
def destroyStx (s : St τ) (ctx : Ctx τ) : Option (St τ) :=
  if ctx.stx_idx.isSome then
    (mutexLock J.threads s.held).map fun h =>
      { s with stx := stxRelease J.stx s.stx ctx, held := mutexUnlock J.threads h }
  else some s

/-- the second -/
def destroyEntry (s : St τ) (id : ℕ) : Option (St τ) :=
  (mutexLock J.threads s.held).map fun h =>
    { s with contexts := s.contexts.set id none, held := mutexUnlock J.threads h }

/-- `shmem_transport_ctx_destroy` of a context with an id; `none` when the caller waits for itself -/
def ctxDestroy (s : St τ) (ctx : Ctx τ) (id : ℕ) : Option (St τ) :=
  (destroyStx J s ctx).bind fun s => destroyEntry J s id

/-- `shmem_transport_ctx_create` in a state of the STX pool and of team->contexts -/
def ctxCreate (stx : OfiStx.St τ) (contexts : List (Option (Ctx τ))) (q : Request τ) (fi : FiCall → ℤ) :
    Option (ℤ × St τ) :=
  (mutexLock J.threads false).bind fun h =>
    let id := openSlot contexts
    let r := ctxInit J ⟨stx, grown contexts, h⟩ q fi
    if r.1 ≠ 0 then
      (ctxDestroy J r.2.1 r.2.2 id).map fun s => (r.1, { s with held := mutexUnlock J.threads s.held })
    else
      some (0,
        { stx := { r.2.1.stx with live := r.2.2 :: r.2.1.stx.live }
          contexts := r.2.1.contexts.set id (some r.2.2)
          held := mutexUnlock J.threads r.2.1.held })

/-- some libfabric call of the creation fails -/
def InitFails (stx : OfiStx.St τ) (q : Request τ) (fi : FiCall → ℤ) : Prop := (ctxInit J ⟨stx, [], false⟩ q fi).1 ≠ 0

instance (stx : OfiStx.St τ) (q : Request τ) (fi : FiCall → ℤ) : Decidable (InitFails J stx q fi) :=
  inferInstanceAs (Decidable (_ ≠ _))

/-- the pool is as it was, with nothing reported -/
structure SamePool (s s' : OfiStx.St τ) : Prop where
  pool : s'.pool = s.pool
  kvs : s'.kvs = s.kvs
  faults : s'.faults = s.faults

/-- a failed creation is atomic: it returns an error, with the pool and the occupied entries as before and the lock free -/
def FailsAtomically (stx : OfiStx.St τ) (contexts : List (Option (Ctx τ))) (q : Request τ) (fi : FiCall → ℤ) : Prop :=
  ∃ ret s', ctxCreate J stx contexts q fi = some (ret, s') ∧ ret ≠ 0 ∧ SamePool stx s'.stx ∧
    (∀ i c, Occupied s'.contexts i c ↔ Occupied contexts i c) ∧ s'.held = false

/-- what an allocation relies on: the STX of an entry of the table is in use, an unused one is not private, and when there
is none there is one to share -/
def Fits (P : Params τ) (s : OfiStx.St τ) (ctx : Ctx τ) (probe probe' : ℕ) : Prop :=
  P.stx_max = 0 ∨
  if isPrivate P ctx.SHMEM_CTX_PRIVATE then
    match s.kvs.find? fun e => decide (e.tid = ctx.tid) with
    | some f => (s.pool f.stx_idx).ref_cnt ≠ 0
    | none =>
      match searchUnused P s with
      | some i => (s.pool i).is_private = false
      | none => (searchSharedTwice P s probe probe').isSome = true
  else
    match searchShared P s P.stx_threshold probe with
    | some _ => True
    | none =>
      match searchUnused P s with
      | some i => (s.pool i).is_private = false
      | none => (searchShared P s (-1) probe').isSome = true

/-! ## Giving back the STX -/

variable {P : Params τ} {s : OfiStx.St τ}

omit [DecidableEq τ] in
theorem refDec_refInc (pool : ℕ → Stx) (i : ℕ) : refDec (refInc pool i) i = pool := by
  funext j
  rw [refDec_apply, refInc_apply]
  simp

omit [DecidableEq τ] in
theorem setPrivate_refInc (pool : ℕ → Stx) (i : ℕ) (h : (pool i).is_private = false) :
    setPrivate (refDec (setPrivate (refInc pool i) i true) i) i false = pool := by
  funext j
  rw [setPrivate_apply, refDec_apply, setPrivate_apply, refInc_apply]
  by_cases hij : i = j
  · subst hij
    simp [← h]
  · simp [hij]

omit [DecidableEq τ] in
theorem searchLoop_accepts {threshold : ℤ} {i : ℕ} (left j : ℕ) (h : searchLoop P s threshold left j = some i) :
    Accepts s threshold i := by
  induction left generalizing j with
  | zero => exact absurd h nofun
  | succ left ih =>
    rw [searchLoop] at h
    split at h
    · rename_i ha
      exact Option.some.inj h ▸ ha
    · exact ih _ h

omit [DecidableEq τ] in
/-- what a search for a shared STX finds is not private -/
theorem searchShared_shared {threshold : ℤ} {probe i : ℕ} (h : searchShared P s threshold probe = some i) :
    (s.pool i).is_private = false := by
  unfold searchShared at h
  split at h
  · exact (searchLoop_accepts _ _ h).2.2
  · have hmem := List.mem_of_getElem? h
    rw [List.mem_filter] at hmem
    exact (of_decide_eq_true hmem.2).2.2

omit [DecidableEq τ] in
theorem searchSharedTwice_shared {probe probe' i : ℕ} (h : searchSharedTwice P s probe probe' = some i) :
    (s.pool i).is_private = false := by
  unfold searchSharedTwice at h
  cases h1 : searchShared P s P.stx_threshold probe with
  | some j =>
    rw [h1, Option.some_or] at h
    exact Option.some.inj h ▸ searchShared_shared h1
  | none =>
    rw [h1, Option.none_or] at h
    exact searchShared_shared h

/-- a context on a shared STX gives it back -/
theorem release_shared (s' : OfiStx.St τ) {c : Ctx τ} {i : ℕ} (hc : c.stx_idx = some i)
    (hp : isPrivate P c.SHMEM_CTX_PRIVATE = false) (hi : (s.pool i).is_private = false)
    (hpool : s'.pool = refInc s.pool i) (hkvs : s'.kvs = s.kvs) (hf : s'.faults = s.faults) :
    SamePool s (stxRelease P s' c) := by
  have hi' : (s'.pool i).is_private = false := by rw [hpool, refInc_apply]; exact hi
  unfold stxRelease
  rw [hc]
  simp only [hp, hi', Bool.false_eq_true, if_false, List.append_nil]
  exact ⟨by rw [hpool, refDec_refInc], hkvs, hf⟩

omit [DecidableEq τ] in
/-- a report stays -/
theorem not_samePool {s' : OfiStx.St τ} {f : Fault} {l : List Fault} (h : s'.faults = s.faults ++ f :: l) :
    ¬ SamePool s s' := by
  intro hs
  have hlen := congrArg List.length (h.symm.trans hs.faults)
  rw [List.length_append, List.length_cons] at hlen
  omega

theorem release_faults (s' : OfiStx.St τ) (c : Ctx τ) : ∃ l, (stxRelease P s' c).faults = s'.faults ++ l := by
  unfold stxRelease
  split
  · exact ⟨[], (List.append_nil _).symm⟩
  · split
    · split
      · split
        · exact ⟨[], (List.append_nil _).symm⟩
        · exact ⟨[], (List.append_nil _).symm⟩
      · exact ⟨_, rfl⟩
    · exact ⟨_, rfl⟩

/-- a private context on an STX of its thread: undone as long as the STX is in use -/
theorem release_join_iff {c : Ctx τ} {f : Kvs τ} (hp : isPrivate P c.SHMEM_CTX_PRIVATE = true)
    (hf : s.kvs.find? (fun e => decide (e.tid = c.tid)) = some f) :
    SamePool s (stxRelease P { s with pool := refInc s.pool f.stx_idx } { c with stx_idx := some f.stx_idx }) ↔
      (s.pool f.stx_idx).ref_cnt ≠ 0 := by
  have hcnt : (refInc s.pool f.stx_idx f.stx_idx).ref_cnt - 1 = (s.pool f.stx_idx).ref_cnt := by
    rw [refInc_apply]
    simp
  unfold stxRelease
  simp only [hp, hf, if_true, hcnt]
  constructor
  · intro hs h0
    rw [if_pos h0] at hs
    have hlen : (s.kvs.eraseP fun x => decide (x.tid = f.tid)).length = s.kvs.length := congrArg List.length hs.kvs
    have hmem := List.mem_of_find?_eq_some hf
    have hdel := List.length_eraseP_of_mem (p := fun x : Kvs τ => decide (x.tid = f.tid)) hmem (by simp)
    have hpos := List.length_pos_of_mem hmem
    omega
  · intro h0
    rw [if_neg h0]
    exact ⟨refDec_refInc .., rfl, rfl⟩
omit [DecidableEq τ] in
theorem faults_of_private {i : ℕ} (hi : (s.pool i).is_private = true) :
    s.faults ++ unusedFault s (some i) = s.faults ++ [.unusedIsPrivate] := by
  unfold unusedFault
  simp only [hi, if_true]

omit [DecidableEq τ] in
theorem faults_of_shared {i : ℕ} (hi : (s.pool i).is_private = false) :
    s.faults ++ unusedFault s (some i) = s.faults := by
  unfold unusedFault
  simp only [hi, Bool.false_eq_true, if_false, List.append_nil]

/-- a private context on an STX that was unused: undone if the STX was not marked private -/
theorem release_open_iff {c : Ctx τ} {i : ℕ} (hp : isPrivate P c.SHMEM_CTX_PRIVATE = true)
    (h0 : (s.pool i).ref_cnt = 0) :
    SamePool s (stxRelease P
      { s with
        pool := setPrivate (refInc s.pool i) i true
        kvs := ⟨i, c.tid⟩ :: s.kvs
        faults := s.faults ++ unusedFault s (some i) }
      { c with stx_idx := some i }) ↔ (s.pool i).is_private = false := by
  have hcnt : (setPrivate (refInc s.pool i) i true i).ref_cnt - 1 = 0 := by
    rw [setPrivate_apply, refInc_apply, h0]
    simp
  have hfind : (⟨i, c.tid⟩ :: s.kvs).find? (fun e : Kvs τ => decide (e.tid = c.tid)) = some ⟨i, c.tid⟩ :=
    List.find?_cons_of_pos (by simp)
  have herase : (⟨i, c.tid⟩ :: s.kvs).eraseP (fun x : Kvs τ => decide (x.tid = c.tid)) = s.kvs :=
    List.eraseP_cons_of_pos (by simp)
  unfold stxRelease
  simp only [hp, hfind, hcnt, if_true, herase]
  cases hi : (s.pool i).is_private with
  | true => exact ⟨fun hs => absurd hs (not_samePool (faults_of_private hi)), fun h => Bool.noConfusion h⟩
  | false => exact ⟨fun _ => rfl, fun _ => ⟨setPrivate_refInc s.pool i hi, rfl, faults_of_shared hi⟩⟩

/-- a shared context on an STX that was unused -/
theorem release_unused_iff {c : Ctx τ} {i : ℕ} (hp : isPrivate P c.SHMEM_CTX_PRIVATE = false) :
    SamePool s (stxRelease P { s with pool := refInc s.pool i, faults := s.faults ++ unusedFault s (some i) }
      { c with stx_idx := some i }) ↔ (s.pool i).is_private = false := by
  cases hi : (s.pool i).is_private with
  | true =>
    refine ⟨fun hs => ?_, fun h => Bool.noConfusion h⟩
    obtain ⟨l, hl⟩ := release_faults (P := P)
      { s with pool := refInc s.pool i, faults := s.faults ++ unusedFault s (some i) } { c with stx_idx := some i }
    have hlog : s.faults ++ unusedFault s (some i) ++ l = s.faults ++ .unusedIsPrivate :: l := by
      rw [faults_of_private hi, List.append_assoc, List.singleton_append]
    exact absurd hs (not_samePool (hl.trans hlog))
  | false =>
    exact ⟨fun _ => rfl, fun _ => release_shared _ rfl hp hi rfl rfl (faults_of_shared hi)⟩

omit [DecidableEq τ] in
/-- without an STX there is a report -/
theorem not_same_noIndex : ¬ SamePool s { s with faults := s.faults ++ [.noIndex] } := not_samePool rfl

/-- **Giving back an STX undoes taking it** exactly if the STX fits. -/
theorem release_allocate_iff (c : Ctx τ) (probe probe' : ℕ) :
    SamePool s (stxRelease P (stxAllocate P s c probe probe').1 (stxAllocate P s c probe probe').2) ↔
      Fits P s c probe probe' := by
  unfold stxAllocate Fits
  by_cases hmax : P.stx_max = 0
  · rw [if_pos hmax]
    exact ⟨fun _ => .inl hmax, fun _ => ⟨rfl, rfl, rfl⟩⟩
  rw [if_neg hmax, or_iff_right hmax]
  by_cases hp : isPrivate P c.SHMEM_CTX_PRIVATE = true
  · rw [if_pos hp, if_pos hp]
    cases hf : s.kvs.find? fun e => decide (e.tid = c.tid) with
    | some f => exact release_join_iff hp hf
    | none =>
      cases hu : searchUnused P s with
      | some i => exact release_open_iff hp (searchUnused_some hu).2
      | none =>
        cases h2 : searchSharedTwice P s probe probe' with
        | some i =>
          have hcleared : isPrivate P false = false := by simp [isPrivate]
          exact ⟨fun _ => rfl, fun _ => release_shared _ rfl hcleared (searchSharedTwice_shared h2) rfl rfl rfl⟩
        | none => exact ⟨fun hs => absurd hs not_same_noIndex, fun h => Bool.noConfusion h⟩
  · rw [if_neg hp, if_neg hp]
    rw [Bool.not_eq_true] at hp
    cases h1 : searchShared P s P.stx_threshold probe with
    | some i => exact ⟨fun _ => trivial, fun _ => release_shared _ rfl hp (searchShared_shared h1) rfl rfl rfl⟩
    | none =>
      cases hu : searchUnused P s with
      | some i => exact release_unused_iff hp
      | none =>
        cases h2 : searchShared P s (-1) probe' with
        | some i => exact ⟨fun _ => rfl, fun _ => release_shared _ rfl hp (searchShared_shared h2) rfl rfl rfl⟩
        | none => exact ⟨fun hs => absurd hs not_same_noIndex, fun h => Bool.noConfusion h⟩

/-- in a consistent state every STX fits -/
theorem fits_of_inv (h : Inv P s) (c : Ctx τ) (probe probe' : ℕ) : Fits P s c probe probe' := by
  unfold Fits
  right
  split
  · cases hf : s.kvs.find? fun e => decide (e.tid = c.tid) with
    | some f =>
      intro h0
      have hpriv := h.entry_private (find_tid hf).1
      rw [h.unused _ h0] at hpriv
      exact Bool.noConfusion hpriv
    | none =>
      cases hu : searchUnused P s with
      | some i => exact h.unused i (searchUnused_some hu).2
      | none =>
        rw [Option.isSome_iff_ne_none]
        intro hnone
        exact h.shared_found probe' (Option.or_eq_none_iff.mp hnone).2
  · cases h1 : searchShared P s P.stx_threshold probe with
    | some i => trivial
    | none =>
      cases hu : searchUnused P s with
      | some i => exact h.unused i (searchUnused_some hu).2
      | none =>
        rw [Option.isSome_iff_ne_none]
        exact h.shared_found probe'

/-! ## Failed creations -/

variable {J : Job τ}

/-- the code does not depend on the array or the lock -/
theorem ctxInit_code (s : St τ) (q : Request τ) (fi : FiCall → ℤ) :
    (ctxInit J s q fi).1 = (ctxInit J ⟨s.stx, [], false⟩ q fi).1 := by
  unfold ctxInit
  split
  · rfl
  · rfl

theorem ctxInit_frame (s : St τ) (q : Request τ) (fi : FiCall → ℤ) :
    (ctxInit J s q fi).2.1.contexts = s.contexts ∧ (ctxInit J s q fi).2.1.held = s.held := by
  unfold ctxInit
  split
  · exact ⟨rfl, rfl⟩
  · exact ⟨rfl, rfl⟩

/-- destroying a context needs the lock -/
theorem ctxDestroy_held (hm : J.threads.mutexes = true) {s : St τ} (hh : s.held = true) (ctx : Ctx τ) (id : ℕ) :
    ctxDestroy J s ctx id = none := by
  unfold ctxDestroy destroyStx
  split
  · rw [hh, mutexLock_held hm]
    rfl
  · rw [Option.bind_some, destroyEntry, hh, mutexLock_held hm]
    rfl

theorem ctxDestroy_off (hm : J.threads.mutexes = false) (s : St τ) (ctx : Ctx τ) (id : ℕ) :
    ctxDestroy J s ctx id = some ⟨stxRelease J.stx s.stx ctx, s.contexts.set id none, s.held⟩ := by
  have hentry : ∀ s : St τ, destroyEntry J s id = some { s with contexts := s.contexts.set id none } := by
    intro s
    rw [destroyEntry, mutexLock_off hm, Option.map_some, mutexUnlock_off hm]
  unfold ctxDestroy destroyStx
  split
  · rw [mutexLock_off hm, Option.map_some, mutexUnlock_off hm, Option.bind_some, hentry]
  · rename_i hnone
    have hctx : ctx.stx_idx = none := by rwa [Option.isSome_iff_ne_none, not_not] at hnone
    have hrel : stxRelease J.stx s.stx ctx = s.stx := by
      unfold stxRelease
      rw [hctx]
    rw [Option.bind_some, hentry, hrel]

/-- with the mutexes a failed creation never returns -/
theorem ctxCreate_stuck (hm : J.threads.mutexes = true) {stx : OfiStx.St τ} (contexts : List (Option (Ctx τ)))
    {q : Request τ} {fi : FiCall → ℤ} (h : InitFails J stx q fi) : ctxCreate J stx contexts q fi = none := by
  have hcode : (ctxInit J ⟨stx, grown contexts, true⟩ q fi).1 ≠ 0 := by rwa [ctxInit_code]
  have hheld := (ctxInit_frame (J := J) ⟨stx, grown contexts, true⟩ q fi).2
  unfold ctxCreate
  rw [mutexLock_free hm, Option.bind_some]
  simp only [hcode, ne_eq, not_false_eq_true, if_true, ctxDestroy_held hm hheld, Option.map_none]

/-- without them it gives the STX back -/
theorem ctxCreate_off (hm : J.threads.mutexes = false) {stx : OfiStx.St τ} (contexts : List (Option (Ctx τ)))
    {q : Request τ} {fi : FiCall → ℤ} (h : InitFails J stx q fi) :
    ∃ r, r = ctxInit J ⟨stx, grown contexts, false⟩ q fi ∧ r.1 ≠ 0 ∧
      ctxCreate J stx contexts q fi = some (r.1, ⟨stxRelease J.stx r.2.1.stx r.2.2, grown contexts, false⟩) := by
  have hcode : (ctxInit J ⟨stx, grown contexts, false⟩ q fi).1 ≠ 0 := by rwa [ctxInit_code]
  obtain ⟨hctxs, hheld⟩ := ctxInit_frame (J := J) ⟨stx, grown contexts, false⟩ q fi
  refine ⟨_, rfl, hcode, ?_⟩
  unfold ctxCreate
  rw [mutexLock_off hm, Option.bind_some]
  simp only [hcode, ne_eq, not_false_eq_true, if_true, ctxDestroy_off hm, Option.map_some, mutexUnlock_off hm, hctxs, hheld,
    grown_set_none]

/-- what is left of the pool: untouched if no STX was taken yet -/
theorem samePool_iff (stx : OfiStx.St τ) (contexts : List (Option (Ctx τ))) (q : Request τ) (fi : FiCall → ℤ)
    {r : ℤ × St τ × Ctx τ} (hr : r = ctxInit J ⟨stx, contexts, false⟩ q fi) :
    SamePool stx (stxRelease J.stx r.2.1.stx r.2.2) ↔
      firstError fi openCalls ≠ 0 ∨ Fits J.stx stx (newCtx J.stx q.SHMEM_CTX_PRIVATE q.tid) q.probe q.probe' := by
  subst hr
  unfold ctxInit
  by_cases h : firstError fi openCalls ≠ 0
  · rw [if_pos h]
    exact ⟨fun _ => .inl h, fun _ => ⟨rfl, rfl, rfl⟩⟩
  · rw [if_neg h, or_iff_right h]
    exact release_allocate_iff ..

/-- **Atomicity of a failed creation.** When some libfabric call fails, the creation returns an error with the STX pool, the
table and the occupied entries of team->contexts as before and shmem_transport_ofi_lock free exactly if the mutexes do
nothing and the STX that was taken, if one was taken, was consistent. With the mutexes it waits for its own lock. -/
theorem ctx_create_failure_iff (stx : OfiStx.St τ) (contexts : List (Option (Ctx τ))) (q : Request τ) (fi : FiCall → ℤ)
    (h : InitFails J stx q fi) :
    FailsAtomically J stx contexts q fi ↔ J.threads.mutexes = false ∧
      (firstError fi openCalls ≠ 0 ∨ Fits J.stx stx (newCtx J.stx q.SHMEM_CTX_PRIVATE q.tid) q.probe q.probe') := by
  cases hm : J.threads.mutexes with
  | true =>
    constructor
    · rintro ⟨ret, s', hc, -⟩
      rw [ctxCreate_stuck hm contexts h] at hc
      exact absurd hc nofun
    · rintro ⟨hfalse, -⟩
      exact Bool.noConfusion hfalse
  | false =>
    obtain ⟨r, hr, hcode, hc⟩ := ctxCreate_off hm contexts h
    rw [and_iff_right rfl, ← samePool_iff stx (grown contexts) q fi hr]
    constructor
    · rintro ⟨ret, s', hc', -, hsame, -⟩
      rw [hc, Option.some.injEq, Prod.mk.injEq] at hc'
      obtain ⟨-, rfl⟩ := hc'
      exact hsame
    · intro hsame
      exact ⟨r.1, _, hc, hcode, hsame, fun i c => occupied_grown contexts i c, rfl⟩

theorem ctxInit_ok {stx : OfiStx.St τ} {q : Request τ} {fi : FiCall → ℤ} (h : ¬ InitFails J stx q fi)
    (contexts : List (Option (Ctx τ))) (held : Bool) :
    ctxInit J ⟨stx, contexts, held⟩ q fi =
      (0, ⟨(stxAllocate J.stx stx (newCtx J.stx q.SHMEM_CTX_PRIVATE q.tid) q.probe q.probe').1, contexts, held⟩,
        (stxAllocate J.stx stx (newCtx J.stx q.SHMEM_CTX_PRIVATE q.tid) q.probe q.probe').2) := by
  have hopen : ¬ firstError fi openCalls ≠ 0 := by
    intro hopen
    apply h
    unfold InitFails ctxInit
    rwa [if_pos hopen]
  have hcode := ctxInit_code (J := J) ⟨stx, contexts, held⟩ q fi
  rw [not_not.mp h] at hcode
  unfold ctxInit at hcode ⊢
  rw [if_neg hopen] at hcode ⊢
  exact Prod.ext hcode rfl

/-- a creation that succeeds is one of the STX pool's model, and its context is at the open slot -/
theorem ctxCreate_success {stx : OfiStx.St τ} (contexts : List (Option (Ctx τ))) {q : Request τ} {fi : FiCall → ℤ}
    (h : ¬ InitFails J stx q fi) :
    ∃ c, ctxCreate J stx contexts q fi = some (0,
      ⟨OfiStx.ctxCreate J.stx stx q.SHMEM_CTX_PRIVATE q.tid q.probe q.probe',
        (grown contexts).set (openSlot contexts) (some c), false⟩) := by
  obtain ⟨held, hlock, hunlock⟩ := mutexLock_unlock J.threads
  refine ⟨(stxAllocate J.stx stx (newCtx J.stx q.SHMEM_CTX_PRIVATE q.tid) q.probe q.probe').2, ?_⟩
  unfold ctxCreate
  rw [hlock, Option.bind_some]
  simp only [ctxInit_ok h, ne_eq, not_true_eq_false, if_false, hunlock]
  rfl

end

/-! ## Examples of failures -/

/-- a job with two STXs at a thread level -/
def jobAt (level : ThreadLevel) : Job ℕ :=
  ⟨⟨2, 1, .ROUNDROBIN, false, decide (level = .SERIALIZED) || decide (level = .MULTIPLE), 0⟩, ⟨true, level⟩, rfl⟩

/-- fi_enable fails -/
def enableFails : FiCall → ℤ
  | .enable => -22
  | _ => 0

/-- the second thread creates a private context -/
def secondThread : Request ℕ := ⟨true, 2, 0, 0⟩

theorem ctx_create_failure_serialized :
    FailsAtomically (jobAt .SERIALIZED) (startup (jobAt .SERIALIZED).stx) [] secondThread enableFails :=
  (ctx_create_failure_iff (startup (jobAt .SERIALIZED).stx) [] secondThread enableFails (by decide)).mpr
    ⟨rfl, .inr (fits_of_inv (inv_startup (by decide)) _ _ _)⟩

/-- **At SHMEM_THREAD_MULTIPLE** the creation does not return when fi_enable fails, and neither when the first call fails. -/
theorem ctx_create_deadlock :
    ¬ FailsAtomically (jobAt .MULTIPLE) (startup (jobAt .MULTIPLE).stx) [] secondThread enableFails ∧
      ¬ FailsAtomically (jobAt .MULTIPLE) (startup (jobAt .MULTIPLE).stx) [] secondThread (fun _ => -22) := by
  have hnone : ∀ fi, ctxCreate (jobAt .MULTIPLE) (startup (jobAt .MULTIPLE).stx) [] secondThread fi = none →
      ¬ FailsAtomically (jobAt .MULTIPLE) (startup (jobAt .MULTIPLE).stx) [] secondThread fi := by
    rintro fi hfi ⟨ret, s', hc, -⟩
    rw [hfi] at hc
    exact absurd hc nofun
  exact ⟨hnone _ (ctxCreate_stuck rfl [] (by decide)), hnone _ (ctxCreate_stuck rfl [] (by decide))⟩

end SandiaShmem.Transport.OfiCtx
