/-
Creation of a context in the Portals4 transport, and what it leaves behind when it fails (`src/transport_portals4.c`).

The creation holds the ctx mutex. It takes an entry of team->contexts and memory for the context, sets the counter of
pending event-queue puts of the PE to 0, and acquires five Portals handles. When one of them cannot be had, the handles of
the context that are not PTL_INVALID_HANDLE are released and the context is freed; the pointer to it is then NULL, and the
team is stored through it all the same. Without memory the creation returns with the mutex.

- `released_iff`: the cleanup releases what was acquired exactly if the volatile MD was bound, or 0 is PTL_INVALID_HANDLE.
- `ptl_ctx_create_failure_iff`: a failed creation is atomic only if it is the memory that is missing and mutexes do nothing.
-/
import Mathlib.Tactic
import SandiaShmem.Transport.Contexts

namespace SandiaShmem.Transport.PtlCtx

open Contexts

/-! ## Model -/

/-- the handles of a `shmem_transport_ctx_t` -/
inductive Res where
  | put_ct
  | put_md
  | put_volatile_md
  | get_ct
  | get_md
deriving DecidableEq, Repr

structure Ctx where
  id : ℕ
  options : ℤ
  handle : Res → ℕ
  pending_put_cntr : ℕ
  pending_get_cntr : ℕ

/-- a job: the value of PTL_INVALID_HANDLE, and the threads -/
structure Job where
  PTL_INVALID_HANDLE : ℕ
  threads : Threads

/-- the state in a creation: team->contexts, the counter of the transport, whether the caller holds the ctx mutex, the
Portals handles it has acquired and released, and whether it has used a pointer that is NULL -/
structure St where
  contexts : List (Option Ctx)
  pending_put_event_cntr : ℕ
  held : Bool
  acquired : List ℕ
  released : List ℕ
  faulted : Bool

/-- the order in which `shmem_transport_ctx_init` acquires the handles -/
def acquireOrder : List Res := [.put_ct, .put_md, .put_volatile_md, .get_ct, .get_md]

/-- the order in which its cleanup releases them -/
def cleanupOrder : List Res := [.put_volatile_md, .put_md, .get_md, .put_ct, .get_ct]

section
variable (J : Job)

/-- the handles before the first is acquired: `memset`, and PTL_INVALID_HANDLE for all but the volatile MD -/
def blankHandle : Res → ℕ
  | .put_volatile_md => 0
  | _ => J.PTL_INVALID_HANDLE

/-- PtlCTAlloc and PtlMDBind in turn, each a handle or an error: whether all succeed, the handles of the context, and what
has been acquired -/
def acquire (ptl : Res → Option ℕ) (handle : Res → ℕ) : List Res → Bool × (Res → ℕ) × List ℕ
  | [] => (true, handle, [])
  | r :: rs =>
    match ptl r with
    | none => (false, handle, [])
    | some h =>
      let x := acquire ptl (Function.update handle r h) rs
      (x.1, x.2.1, h :: x.2.2)

/-- the handles that the cleanup of `shmem_transport_ctx_init` releases -/
def cleanup (handle : Res → ℕ) : List ℕ :=
  (cleanupOrder.map handle).filter fun h => decide (h ≠ J.PTL_INVALID_HANDLE)

/-- `shmem_transport_ctx_init`: the code it returns, the state and the context after it -/
def ctxInit (s : St) (options : ℤ) (id : ℕ) (ptl : Res → Option ℕ) : ℤ × St × Ctx :=
  let x := acquire ptl (blankHandle J) acquireOrder
  let ctx : Ctx := ⟨id, options, x.2.1, 0, 0⟩
  let s' := { s with acquired := s.acquired ++ x.2.2 }
  if x.1 then (0, s', ctx) else (1, { s' with released := s'.released ++ cleanup J x.2.1 }, ctx)

/-- `(*ctx)->team = team` -/
def storeTeam (s : St) (ctx : Option Ctx) : St := if ctx.isSome then s else { s with faulted := true }

/-- what a creation finds: whether there is memory, and what the Portals calls answer -/
structure Env where
  malloc : Bool
  ptl : Res → Option ℕ

/-- `shmem_transport_ctx_create`; it starts without the mutex, and `none` says that it never gets it -/
def ctxCreate (contexts : List (Option Ctx)) (event_cntr : ℕ) (options : ℤ) (E : Env) : Option (ℤ × St) :=
  (mutexLock J.threads false).map fun h =>
    let id := openSlot contexts
    let s : St := ⟨grown contexts, event_cntr, h, [], [], false⟩
    if E.malloc then
      let r := ctxInit J { s with pending_put_event_cntr := 0 } options id E.ptl
      let ctx := if r.1 ≠ 0 then none else some r.2.2
      let s := if r.1 ≠ 0 then r.2.1 else { r.2.1 with contexts := r.2.1.contexts.set id (some r.2.2) }
      (r.1, { storeTeam s ctx with held := mutexUnlock J.threads s.held })
    else (1, s)

/-- some step of the creation fails -/
def Fails (E : Env) : Prop := E.malloc = false ∨ ∃ r, E.ptl r = none

/-- a failed creation is atomic: it returns an error, has released the handles it has acquired and no others, with the
occupied entries and the counters as before and the mutex free, and has not used a pointer that is NULL -/
def FailsAtomically (contexts : List (Option Ctx)) (event_cntr : ℕ) (options : ℤ) (E : Env) : Prop :=
  ∃ ret s, ctxCreate J contexts event_cntr options E = some (ret, s) ∧ ret ≠ 0 ∧ s.released.Perm s.acquired ∧
    (∀ i c, Occupied s.contexts i c ↔ Occupied contexts i c) ∧ s.pending_put_event_cntr = event_cntr ∧ s.held = false ∧
    s.faulted = false

end

/-! ## Acquiring the handles -/

theorem acquire_ok_iff (ptl : Res → Option ℕ) (handle : Res → ℕ) (rs : List Res) :
    (acquire ptl handle rs).1 = true ↔ ∀ r ∈ rs, ptl r ≠ none := by
  induction rs generalizing handle with
  | nil => exact ⟨fun _ _ hr => absurd hr List.not_mem_nil, fun _ => rfl⟩
  | cons r rs ih =>
    rw [List.forall_mem_cons]
    unfold acquire
    cases hr : ptl r with
    | none => exact ⟨fun h => Bool.noConfusion h, fun h => absurd rfl h.1⟩
    | some h => exact (ih _).trans (and_iff_right nofun).symm

theorem mem_acquireOrder (r : Res) : r ∈ acquireOrder := by
  cases r <;> decide

variable {J : Job}

/-- what the cleanup adds for the volatile MD when it has not been bound -/
def stray : List ℕ := if J.PTL_INVALID_HANDLE = 0 then [] else [0]

theorem filter_handle {h : ℕ} (hh : h ≠ J.PTL_INVALID_HANDLE) (l : List ℕ) :
    (h :: l).filter (fun h => decide (h ≠ J.PTL_INVALID_HANDLE)) =
      h :: l.filter fun h => decide (h ≠ J.PTL_INVALID_HANDLE) :=
  List.filter_cons_of_pos (by simpa using hh)

theorem filter_invalid (l : List ℕ) :
    (J.PTL_INVALID_HANDLE :: l).filter (fun h => decide (h ≠ J.PTL_INVALID_HANDLE)) =
      l.filter fun h => decide (h ≠ J.PTL_INVALID_HANDLE) :=
  List.filter_cons_of_neg (by simp)

theorem filter_zero (l : List ℕ) :
    (0 :: l).filter (fun h => decide (h ≠ J.PTL_INVALID_HANDLE)) =
      stray (J := J) ++ l.filter fun h => decide (h ≠ J.PTL_INVALID_HANDLE) := by
  unfold stray
  by_cases h : J.PTL_INVALID_HANDLE = 0
  · rw [if_pos h, List.filter_cons_of_neg (by simp [h])]
    rfl
  · rw [if_neg h, List.filter_cons_of_pos (by simpa using Ne.symm h)]
    rfl

theorem stray_perm_iff {l l' : List ℕ} (h : l.Perm l') :
    (stray (J := J) ++ l).Perm l' ↔ J.PTL_INVALID_HANDLE = 0 := by
  unfold stray
  constructor
  · intro hperm
    by_contra h0
    have hlen := hperm.length_eq
    rw [if_neg h0, List.singleton_append, List.length_cons, h.length_eq] at hlen
    omega
  · intro h0
    rwa [if_pos h0, List.nil_append]

/-- the handles of the context after a failure -/
theorem cleanup_eq (handle : Res → ℕ) :
    cleanup J handle =
      [handle .put_volatile_md, handle .put_md, handle .get_md, handle .put_ct, handle .get_ct].filter
        fun h => decide (h ≠ J.PTL_INVALID_HANDLE) := rfl

/-- **The cleanup** releases the handles that were acquired before a failure, and no others, exactly if the volatile MD
was among them or PTL_INVALID_HANDLE is the 0 that memset has left for it. -/
theorem released_iff (ptl : Res → Option ℕ) (hvalid : ∀ r h, ptl r = some h → h ≠ J.PTL_INVALID_HANDLE)
    (hfail : (acquire ptl (blankHandle J) acquireOrder).1 = false) :
    (cleanup J (acquire ptl (blankHandle J) acquireOrder).2.1).Perm (acquire ptl (blankHandle J) acquireOrder).2.2 ↔
      J.PTL_INVALID_HANDLE = 0 ∨ ((ptl .put_ct).isSome ∧ (ptl .put_md).isSome ∧ (ptl .put_volatile_md).isSome) := by
  rw [cleanup_eq]
  unfold acquireOrder at hfail ⊢
  cases h1 : ptl .put_ct with
  | none =>
    simp only [acquire, h1, blankHandle, filter_zero, filter_invalid, List.filter_nil]
    rw [stray_perm_iff .nil]
    simp
  | some ct =>
    have hct := hvalid _ _ h1
    cases h2 : ptl .put_md with
    | none =>
      simp only [acquire, h1, h2, blankHandle, filter_zero, filter_invalid, List.filter_nil, Function.update_self,
        Function.update_of_ne, filter_handle hct, ne_eq, reduceCtorEq, not_false_eq_true]
      rw [stray_perm_iff (.refl _)]
      simp
    | some md =>
      have hmd := hvalid _ _ h2
      cases h3 : ptl .put_volatile_md with
      | none =>
        simp only [acquire, h1, h2, h3, blankHandle, filter_zero, filter_invalid, List.filter_nil, Function.update_self,
          Function.update_of_ne, filter_handle hct, filter_handle hmd, ne_eq, reduceCtorEq, not_false_eq_true]
        rw [stray_perm_iff (.swap ..)]
        simp
      | some vol =>
        have hvol := hvalid _ _ h3
        refine iff_of_true ?_ (.inr ⟨rfl, rfl, rfl⟩)
        cases h4 : ptl .get_ct with
        | none =>
          simp only [acquire, h1, h2, h3, h4, blankHandle, filter_invalid, List.filter_nil, Function.update_self,
            Function.update_of_ne, filter_handle hct, filter_handle hmd, filter_handle hvol, ne_eq, reduceCtorEq,
            not_false_eq_true]
          exact (List.reverse_perm [ct, md, vol])
        | some gct =>
          have hgct := hvalid _ _ h4
          cases h5 : ptl .get_md with
          | some gmd => simp [acquire, h1, h2, h3, h4, h5] at hfail
          | none =>
            simp only [acquire, h1, h2, h3, h4, h5, blankHandle, filter_invalid, List.filter_nil, Function.update_self,
              Function.update_of_ne, filter_handle hct, filter_handle hmd, filter_handle hvol, filter_handle hgct, ne_eq,
              reduceCtorEq, not_false_eq_true]
            exact (List.reverse_perm [ct, md, vol]).append (.refl [gct])

/-! ## Failed creations -/

theorem ctxInit_fails {E : Env} {r : Res} (hr : E.ptl r = none) (s : St) (options : ℤ) (id : ℕ) :
    (ctxInit J s options id E.ptl).1 = 1 := by
  have hfail : (acquire E.ptl (blankHandle J) acquireOrder).1 = false := by
    by_contra h
    exact (acquire_ok_iff ..).mp (Bool.eq_true_of_not_eq_false h) r (mem_acquireOrder r) hr
  unfold ctxInit
  simp only [hfail, Bool.false_eq_true, if_false]

/-- a creation that cannot have a Portals handle stores the team through NULL -/
theorem ctxCreate_faulted {E : Env} (hm : E.malloc = true) {r : Res} (hr : E.ptl r = none) {contexts : List (Option Ctx)}
    {event_cntr : ℕ} {options ret : ℤ} {s : St} (h : ctxCreate J contexts event_cntr options E = some (ret, s)) :
    s.faulted = true := by
  obtain ⟨held, hlock, -⟩ := mutexLock_unlock J.threads
  unfold ctxCreate at h
  rw [hlock, Option.map_some, Option.some.injEq] at h
  simp only [hm, ctxInit_fails hr, if_true, ne_eq, one_ne_zero, not_false_eq_true, Prod.mk.injEq] at h
  obtain ⟨-, rfl⟩ := h
  rfl

/-- a creation without memory returns as it has got the mutex -/
theorem ctxCreate_no_memory {E : Env} (hm : E.malloc = false) (contexts : List (Option Ctx)) (event_cntr : ℕ)
    (options : ℤ) :
    ctxCreate J contexts event_cntr options E =
      some (1, ⟨grown contexts, event_cntr, J.threads.mutexes, [], [], false⟩) := by
  unfold ctxCreate
  simp only [hm, Bool.false_eq_true, if_false]
  cases hT : J.threads.mutexes with
  | true => rw [mutexLock_free hT, Option.map_some]
  | false => rw [mutexLock_off hT, Option.map_some]

/-- **Atomicity of a failed creation.** A creation that fails returns an error with its handles released, the contexts and
the counters as before, the mutex free and no use of the freed or NULL context exactly if it is the memory for the context
that is missing, and the mutexes do nothing. -/
theorem ptl_ctx_create_failure_iff (contexts : List (Option Ctx)) (event_cntr : ℕ) (options : ℤ) (E : Env) (h : Fails E) :
    FailsAtomically J contexts event_cntr options E ↔ E.malloc = false ∧ J.threads.mutexes = false := by
  cases hm : E.malloc with
  | true =>
    have hptl : ∃ r, E.ptl r = none := h.resolve_left (by rw [hm]; nofun)
    obtain ⟨r, hr⟩ := hptl
    constructor
    · rintro ⟨ret, s, hc, -, -, -, -, -, hfault⟩
      rw [ctxCreate_faulted hm hr hc] at hfault
      exact Bool.noConfusion hfault
    · exact fun hfalse => Bool.noConfusion hfalse.1
  | false =>
    rw [and_iff_right rfl]
    constructor
    · rintro ⟨ret, s, hc, -, -, -, -, hheld, -⟩
      rw [ctxCreate_no_memory hm, Option.some.injEq, Prod.mk.injEq] at hc
      obtain ⟨-, rfl⟩ := hc
      exact hheld
    · intro hT
      refine ⟨1, _, ctxCreate_no_memory hm contexts event_cntr options, one_ne_zero, .nil, fun i c => ?_, rfl, hT, rfl⟩
      exact occupied_grown contexts i c

/-- the second PtlCTAlloc fails -/
def getCtFails : Res → Option ℕ
  | .put_ct => some 1
  | .put_md => some 2
  | .put_volatile_md => some 3
  | .get_ct => none
  | .get_md => some 4

/-- two contexts of a team, and between them the slot of one that has been destroyed -/
def twoLive : List (Option Ctx) := [some ⟨0, 0, fun _ => 5, 3, 1⟩, none, some ⟨2, 1, fun _ => 6, 0, 2⟩]

/-- a team with two contexts at SHMEM_THREAD_SERIALIZED: atomic without memory, not so without the second counting event -/
theorem ptl_ctx_create_failure_serialized :
    FailsAtomically ⟨255, ⟨true, .SERIALIZED⟩⟩ twoLive 7 1 ⟨false, getCtFails⟩ ∧
      ¬ FailsAtomically ⟨255, ⟨true, .SERIALIZED⟩⟩ twoLive 7 1 ⟨true, getCtFails⟩ := by
  refine ⟨(ptl_ctx_create_failure_iff twoLive 7 1 _ (.inl rfl)).mpr ⟨rfl, rfl⟩, fun h => ?_⟩
  exact Bool.noConfusion ((ptl_ctx_create_failure_iff twoLive 7 1 _ (.inr ⟨.get_ct, rfl⟩)).mp h).1

/-- **Without the second counting event** the creation stores through NULL, and sets the counter of the transport to 0, at
every thread level; at SHMEM_THREAD_MULTIPLE a creation without memory keeps the mutex. -/
theorem ctx_create_not_atomic :
    ¬ FailsAtomically ⟨255, ⟨true, .SINGLE⟩⟩ [] 7 0 ⟨true, getCtFails⟩ ∧
      ¬ FailsAtomically ⟨255, ⟨true, .MULTIPLE⟩⟩ [] 7 0 ⟨false, getCtFails⟩ := by
  constructor
  · rintro ⟨ret, s, hc, -, -, -, -, -, hfault⟩
    rw [ctxCreate_faulted (r := .get_ct) rfl rfl hc] at hfault
    exact Bool.noConfusion hfault
  · rintro ⟨ret, s, hc, -, -, -, -, hheld, -⟩
    rw [ctxCreate_no_memory rfl, Option.some.injEq, Prod.mk.injEq] at hc
    obtain ⟨-, rfl⟩ := hc
    exact Bool.noConfusion hheld

end SandiaShmem.Transport.PtlCtx
