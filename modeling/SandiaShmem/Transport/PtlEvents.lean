/-
Send events of the Portals 4 transport (`src/transport_portals4.h`), for one thread.

A bounce-buffered or long operation asks for a PTL_EVENT_SEND. The event queue has room for 2048 events, so each such
operation takes one of event_slots and `shmem_transport_portals4_drain_eq` gives it back with the event it reads. The
event names the fragment of the operation: a bounce buffer, which goes back to its free list, or a long fragment with a
count of its operations (reference) and the variable in which its caller counts them (completion).

A step of the model ends where the event queue is read: the throttling loop, `shmem_transport_put_wait` and the calls of
drain_eq each take one event per step, and the code between two of them cannot be interrupted. The events are delivered
in any order, and an event of an operation can be delivered as soon as it is posted.

- `Accounted`: slots, fragments, assertion and completion variables.
- `FreesOwn`: the throttling loop of `shmem_transport_atomicv` reads the last event of the fragment it is sending from.
- `accounted_iff`: a run is accounted for in every state if and only if this never happens.
-/
import SandiaShmem.Core.Runs
import SandiaShmem.Core.FreeList

namespace SandiaShmem.Transport.PtlEvents

/-! ## Model -/

/-- limits of the network interface -/
structure Params where
  max_volatile_size : ℕ
  bounce_buffer_size : ℕ
  max_atomic_size : ℕ

/-- what an event points to: a bounce buffer or a long fragment -/
inductive Obj where
  | bounce (b : ℕ)
  | long (f : ℕ)
deriving DecidableEq, Repr

/-- a send event; c is the completion variable that the long operation was given, which the event itself does not hold -/
inductive Ev where
  | bounce (b : ℕ)
  | long (f c : ℕ)
deriving DecidableEq, Repr

def Ev.userPtr : Ev → Obj
  | .bounce b => .bounce b
  | .long f _ => .long f

def Ev.given (c : ℕ) : Ev → Bool
  | .bounce _ => false
  | .long _ c' => decide (c' = c)

/-- where the PE is: between two calls, in front of the throttling loop of an operation, in the loop of
`shmem_transport_atomicv` over the fragment f, in `shmem_transport_put_wait`, in drain_eq -/
inductive Pc where
  | idle
  | bouncePost
  | longPost (c : ℕ)
  | chunks (f c len sent : ℕ)
  | wait (c : ℕ)
  | drain
deriving DecidableEq, Repr

/-- the state; reference and completionOf are the fields of the long fragments, completion the variables they point to,
events the undelivered events; allocs and frees count what has happened to each object -/
structure St where
  event_slots : ℤ
  events : List Ev
  bounce_buffers : FreeList
  long_frags : FreeList
  reference : ℕ → ℤ
  completionOf : ℕ → ℕ
  completion : ℕ → ℤ
  pc : Pc
  failed : Bool
  allocs : Obj → ℕ
  frees : Obj → ℕ

def init : St :=
  ⟨2048, [], FreeList.init, FreeList.init, fun _ => 0, fun _ => 0, fun _ => 0, .idle, false, fun _ => 0, fun _ => 0⟩

def bump (f : Obj → ℕ) (x : Obj) : Obj → ℕ := Function.update f x (f x + 1)

/-- the body of `shmem_transport_portals4_drain_eq`, for the event that PtlEQWait returns -/
def drain (s : St) : Ev → St
  | .bounce b =>
    { s with
      event_slots := s.event_slots + 1
      events := s.events.erase (.bounce b)
      bounce_buffers := s.bounce_buffers.free b
      frees := bump s.frees (.bounce b) }
  | .long f c =>
    let s' : St := { s with
      event_slots := s.event_slots + 1
      events := s.events.erase (.long f c)
      completion := Function.update s.completion (s.completionOf f) (s.completion (s.completionOf f) - 1) }
    if 0 ≥ s.reference f - 1 then
      { s' with
        reference := Function.update s.reference f 0
        long_frags := s.long_frags.free f
        frees := bump s.frees (.long f) }
    else { s' with reference := Function.update s.reference f (s.reference f - 1) }

/-- PtlEQWait blocks while there is no event -/
def drainEq (s : St) (e : Ev) : St := if e ∈ s.events then drain s e else s

/-- `0 >= --event_slots` -/
def throttled (s : St) : Prop := 0 ≥ s.event_slots - 1

instance (s : St) : Decidable (throttled s) := inferInstanceAs (Decidable (0 ≥ s.event_slots - 1))

/-- a bounce-buffered operation -/
def postBounce (s : St) : St :=
  let (b, fl) := s.bounce_buffers.alloc
  { s with
    event_slots := s.event_slots - 1
    bounce_buffers := fl
    events := .bounce b :: s.events
    pc := .idle
    allocs := bump s.allocs (.bounce b) }

/-- a long fragment, with `assert(long_frag->reference == 0)` -/
def allocFrag (s : St) (c : ℕ) : ℕ × St :=
  let (f, fl) := s.long_frags.alloc
  (f, { s with
    long_frags := fl
    failed := s.failed || decide (s.reference f ≠ 0)
    completionOf := Function.update s.completionOf f c
    allocs := bump s.allocs (.long f) })

/-- an operation on the long fragment f, posted and counted -/
def postOn (s : St) (f c : ℕ) : St :=
  { s with
    event_slots := s.event_slots - 1
    events := .long f c :: s.events
    completion := Function.update s.completion (s.completionOf f) (s.completion (s.completionOf f) + 1)
    reference := Function.update s.reference f (s.reference f + 1) }

/-- a long put -/
def postLong (s : St) (c : ℕ) : St :=
  let (f, s') := allocFrag s c
  { postOn s' f c with pc := .idle }

variable (P : Params)

/-- a call, and whether its context has SHMEMX_CTX_BOUNCE_BUFFER -/
inductive Call where
  | putNb (opt : Bool) (len c : ℕ)
  | atomicv (len c : ℕ)
  | putWait (opt : Bool) (c : ℕ)
  | drainEq
deriving DecidableEq, Repr

/-- `shmem_transport_portals4_put_nb_internal` -/
def putNbInternal (s : St) (opt : Bool) (len c : ℕ) : St :=
  if len ≤ P.max_volatile_size then s
  else if len ≤ P.bounce_buffer_size ∧ opt then { s with pc := .bouncePost }
  else { s with pc := .longPost c }

/-- `shmem_transport_atomicv` -/
def atomicv (s : St) (len c : ℕ) : St :=
  if len ≤ P.max_volatile_size then s
  else if len ≤ min P.bounce_buffer_size P.max_atomic_size then { s with pc := .bouncePost }
  else
    let (f, s') := allocFrag s c
    { s' with pc := .chunks f c len 0 }

/-- the start of a call; without the option `shmem_transport_put_nb` is `shmem_transport_put_nbi` and
`shmem_transport_put_wait` is a quiet, neither with events -/
def call (s : St) : Call → St
  | .putNb opt len c => if opt then putNbInternal P s opt len c else s
  | .atomicv len c => atomicv P s len c
  | .putWait opt c => if opt then { s with pc := .wait c } else s
  | .drainEq => { s with pc := .drain }

/-- the PE goes on; e is the event that is delivered if it reads the queue -/
def next (s : St) (e : Ev) : St :=
  match s.pc with
  | .idle => s
  | .bouncePost => if throttled s then drainEq s e else postBounce s
  | .longPost c => if throttled s then drainEq s e else postLong s c
  | .chunks f c len sent =>
    if sent < len then
      if throttled s then drainEq s e
      else { postOn s f c with pc := .chunks f c len (sent + min (len - sent) P.max_atomic_size) }
    else { s with pc := .idle }
  | .wait c => if s.completion c > 0 then drainEq s e else { s with pc := .idle }
  | .drain => if e ∈ s.events then { drain s e with pc := .idle } else s

inductive Op where
  | call (c : Call)
  | next (e : Ev)
deriving DecidableEq, Repr

def step (s : St) : Op → St
  | .call c => if s.pc = .idle then call P s c else s
  | .next e => next P s e

/-! ## Accounting -/

/-- the call in progress will post on x -/
def posts (pc : Pc) (x : Obj) : Bool :=
  match pc with
  | .chunks f _ len sent => decide (sent < len) && decide (x = .long f)
  | _ => false

/-- an undelivered event refers to x, or the call in progress will post on it -/
def inUse (events : List Ev) (pc : Pc) (x : Obj) : Bool := events.any (fun e => decide (e.userPtr = x)) || posts pc x

structure Accounted (s : St) : Prop where
  slots : s.event_slots + s.events.length = 2048
  pos : 1 ≤ s.event_slots
  /-- each allocation is followed by one return, when the object is no longer in use -/
  frees : ∀ x, s.allocs x = s.frees x + (inUse s.events s.pc x).toNat
  asserted : s.failed = false
  completion : ∀ c, s.completion c = s.events.countP (Ev.given c)

/-- the throttling loop of atomicv reads the last event of the fragment that the call still posts on -/
def FreesOwn (s : St) : Op → Prop
  | .next (.long f c) => throttled s ∧ Ev.long f c ∈ s.events ∧ posts s.pc (.long f) = true ∧ s.reference f = 1
  | _ => False


/-! ## Invariants -/

/-- the number of undelivered events of a long fragment -/
def refs (events : List Ev) (f : ℕ) : ℕ := events.countP fun e => decide (e.userPtr = .long f)

structure Inv (s : St) : Prop extends Accounted s where
  bounce : s.bounce_buffers.Tracks {b | inUse s.events s.pc (.bounce b) = true}
  long : s.long_frags.Tracks {f | inUse s.events s.pc (.long f) = true}
  once : ∀ b, s.events.count (.bounce b) ≤ 1
  reference : ∀ f, s.reference f = refs s.events f
  given : ∀ f c, Ev.long f c ∈ s.events → s.completionOf f = c
  posting : ∀ f c len sent, s.pc = .chunks f c len sent → sent < len → s.completionOf f = c

variable {P} {s s' : St} {e : Ev} {x y : Obj} {b f c : ℕ}

theorem inUse_iff {events : List Ev} {pc : Pc} :
    inUse events pc x = true ↔ (∃ e ∈ events, e.userPtr = x) ∨ posts pc x = true := by
  simp [inUse]

theorem inUse_cons {events : List Ev} {pc : Pc} :
    inUse (e :: events) pc x = true ↔ x = e.userPtr ∨ inUse events pc x = true := by
  rw [inUse_iff, inUse_iff, List.exists_mem_cons_iff, or_assoc, eq_comm (a := x)]

theorem posts_bounce (pc : Pc) (b : ℕ) : posts pc (.bounce b) = false := by
  cases pc <;> simp [posts]

/-- what is in use when the event e is gone -/
theorem inUse_erase {pc : Pc} (he : e ∈ s.events) (hne : x ≠ e.userPtr) :
    inUse (s.events.erase e) pc x = inUse s.events pc x := by
  have hperm := List.perm_cons_erase he
  rw [Bool.eq_iff_iff]
  constructor
  · intro h
    rcases inUse_iff.mp h with ⟨e', he', hx⟩ | hp
    · exact inUse_iff.mpr (.inl ⟨e', List.mem_of_mem_erase he', hx⟩)
    · exact inUse_iff.mpr (.inr hp)
  · intro h
    rcases inUse_iff.mp h with ⟨e', he', hx⟩ | hp
    · have hee : e' ≠ e := by
        rintro rfl
        exact hne hx.symm
      exact inUse_iff.mpr (.inl ⟨e', (List.mem_erase_of_ne hee).mpr he', hx⟩)
    · exact inUse_iff.mpr (.inr hp)

theorem refs_pos {events : List Ev} (h : Ev.long f c ∈ events) : 0 < refs events f :=
  List.countP_pos_iff.mpr ⟨_, h, by simp [Ev.userPtr]⟩

theorem refs_eq_zero {events : List Ev} (h : refs events f = 0) : ∀ e ∈ events, e.userPtr ≠ .long f := by
  intro e he hx
  exact absurd (decide_eq_true hx) (List.countP_eq_zero.mp h e he)

theorem bump_self (g : Obj → ℕ) (x : Obj) : bump g x x = g x + 1 := Function.update_self _ _ _

theorem bump_ne (g : Obj → ℕ) (h : y ≠ x) : bump g x y = g y := Function.update_of_ne h _ _

/-- a change of the place in the program that leaves what the call will post on -/
theorem Inv.goto (h : Inv s) {pc : Pc} (hp : ∀ x, posts pc x = posts s.pc x)
    (hc : ∀ f c len sent, pc = .chunks f c len sent → sent < len → s.completionOf f = c) :
    Inv { s with pc := pc } := by
  have hsame : ∀ x, inUse s.events pc x = inUse s.events s.pc x := fun x => by simp only [inUse, hp]
  refine ⟨⟨h.slots, h.pos, fun x => ?_, h.asserted, h.completion⟩, ?_, ?_, h.once, h.reference, h.given, hc⟩
  · rw [hsame]
    exact h.frees x
  · simp only [hsame]
    exact h.bounce
  · simp only [hsame]
    exact h.long

/-! ## Draining -/

/-- the return of an object that is no longer in use -/
theorem Accounted.freed (h : ∀ x, s.allocs x = s.frees x + (inUse s.events s.pc x).toNat) (he : e ∈ s.events)
    (hout : inUse (s.events.erase e) s.pc e.userPtr = false) (y : Obj) :
    s.allocs y = bump s.frees e.userPtr y + (inUse (s.events.erase e) s.pc y).toNat := by
  by_cases hy : y = e.userPtr
  · have hin : inUse s.events s.pc e.userPtr = true := inUse_iff.mpr (.inl ⟨e, he, rfl⟩)
    rw [hy, bump_self, hout, h, hin]
    rfl
  · rw [bump_ne _ hy, inUse_erase he hy]
    exact h y

theorem set_erase {k : ℕ → Obj} {e : Ev} {i : ℕ} (hinj : Function.Injective k) (he : e ∈ s.events)
    (hk : e.userPtr = k i) (hout : inUse (s.events.erase e) s.pc e.userPtr = false) :
    {j | inUse (s.events.erase e) s.pc (k j) = true} = {j | inUse s.events s.pc (k j) = true} \ {i} := by
  ext j
  simp only [Set.mem_ofPred_eq, Set.mem_sdiff, Set.mem_singleton_iff]
  by_cases hj : j = i
  · subst hj
    rw [← hk, hout]
    simp
  · rw [inUse_erase he (fun heq => hj (hinj (heq.trans hk)))]
    simp [hj]

theorem Inv.drain_bounce (h : Inv s) (he : Ev.bounce b ∈ s.events) : Inv (drain s (.bounce b)) := by
  have hperm := List.perm_cons_erase he
  have hout : inUse (s.events.erase (.bounce b)) s.pc (Ev.bounce b).userPtr = false := by
    rw [Bool.eq_false_iff]
    intro hin
    rcases inUse_iff.mp hin with ⟨e', he', hx⟩ | hp
    · have hee : e' = .bounce b := by
        cases e' with
        | bounce b' => exact congrArg Ev.bounce (Obj.bounce.inj hx)
        | long f c => exact absurd hx Obj.noConfusion
      have hcount := hperm.count_eq (Ev.bounce b)
      rw [List.count_cons_self] at hcount
      have := List.count_pos_iff.mpr (hee ▸ he')
      have := h.once b
      omega
    · exact absurd ((posts_bounce s.pc b).symm.trans hp) Bool.noConfusion
  have hlong : ∀ j, inUse (s.events.erase (.bounce b)) s.pc (.long j) = inUse s.events s.pc (.long j) :=
    fun j => inUse_erase he Obj.noConfusion
  have hlen : s.events.length = (s.events.erase (.bounce b)).length + 1 := hperm.length_eq
  refine ⟨⟨?_, ?_, Accounted.freed h.frees he hout, h.asserted, fun c => ?_⟩, ?_, ?_, fun b' => ?_, fun f => ?_,
    fun f c hmem => h.given f c (List.mem_of_mem_erase hmem), h.posting⟩
  · have := h.slots
    simp only [drain]
    omega
  · have := h.pos
    simp only [drain]
    omega
  · have hc := hperm.countP_eq (Ev.given c)
    rw [List.countP_cons_of_neg (by simp [Ev.given])] at hc
    exact (h.completion c).trans (congrArg Nat.cast hc)
  · have hset := set_erase (k := Obj.bounce) (fun _ _ => Obj.bounce.inj) he rfl hout
    simp only [drain, hset]
    exact h.bounce.free (inUse_iff.mpr (.inl ⟨_, he, rfl⟩))
  · simp only [drain, hlong]
    exact h.long
  · exact (List.erase_sublist.count_le _).trans (h.once b')
  · have hc := hperm.countP_eq (fun e => decide (e.userPtr = .long f))
    rw [List.countP_cons_of_neg (by simp [Ev.userPtr])] at hc
    exact (h.reference f).trans (congrArg Nat.cast hc)

/-- the counts after an event of the long fragment f -/
theorem erase_counts (he : Ev.long f c ∈ s.events) :
    s.events.length = (s.events.erase (.long f c)).length + 1 ∧
      (∀ c', s.events.countP (Ev.given c') =
        (s.events.erase (.long f c)).countP (Ev.given c') + if c = c' then 1 else 0) ∧
      ∀ g, refs s.events g = refs (s.events.erase (.long f c)) g + if f = g then 1 else 0 := by
  have hperm := List.perm_cons_erase he
  refine ⟨hperm.length_eq, fun c' => ?_, fun g => ?_⟩
  · rw [hperm.countP_eq, List.countP_cons]
    simp only [Ev.given, decide_eq_true_eq]
  · rw [refs, refs, hperm.countP_eq, List.countP_cons]
    simp only [Ev.userPtr, decide_eq_true_eq, Obj.long.injEq]

theorem Inv.drain_completion (h : Inv s) (he : Ev.long f c ∈ s.events) (c' : ℕ) :
    Function.update s.completion (s.completionOf f) (s.completion (s.completionOf f) - 1) c' =
      (s.events.erase (.long f c)).countP (Ev.given c') := by
  have hc := (erase_counts he).2.1 c'
  have hval := h.completion c'
  rw [h.given f c he]
  by_cases hcc : c = c'
  · subst hcc
    rw [Function.update_self, hval, hc]
    simp
  · rw [Function.update_of_ne (Ne.symm hcc), hval, hc]
    simp [hcc]

/-- an event of a long fragment that has other undelivered events -/
theorem Inv.drain_more (h : Inv s) (he : Ev.long f c ∈ s.events) (hmore : ¬ 0 ≥ s.reference f - 1) :
    Inv (drain s (.long f c)) := by
  obtain ⟨hlen, -, hrefs⟩ := erase_counts he
  have href := h.reference f
  have hsame : ∀ x, inUse (s.events.erase (.long f c)) s.pc x = inUse s.events s.pc x := by
    intro x
    by_cases hx : x = (Ev.long f c).userPtr
    · subst hx
      have hpos : 0 < refs (s.events.erase (.long f c)) f := by
        have := hrefs f
        simp only [if_true] at this
        omega
      obtain ⟨e', he', hx'⟩ := List.countP_pos_iff.mp hpos
      have hstill : inUse (s.events.erase (.long f c)) s.pc (.long f) = true :=
        inUse_iff.mpr (.inl ⟨e', he', of_decide_eq_true hx'⟩)
      exact hstill.trans (inUse_iff.mpr (.inl ⟨_, he, rfl⟩)).symm
    · exact inUse_erase he hx
  simp only [drain, if_neg hmore]
  refine ⟨⟨?_, ?_, fun x => ?_, h.asserted, h.drain_completion he⟩, ?_, ?_, fun b' => ?_, fun g => ?_,
    fun f' c' hmem => h.given f' c' (List.mem_of_mem_erase hmem), h.posting⟩
  · have := h.slots
    simp only
    omega
  · have := h.pos
    simp only
    omega
  · simp only [hsame]
    exact h.frees x
  · simp only [hsame]
    exact h.bounce
  · simp only [hsame]
    exact h.long
  · exact (List.erase_sublist.count_le _).trans (h.once b')
  · have hg := hrefs g
    by_cases hgf : f = g
    · subst hgf
      simp only [if_true] at hg
      simp only [Function.update_self]
      omega
    · simp only [if_neg hgf] at hg
      simp only [Function.update_of_ne (Ne.symm hgf), h.reference g]
      omega

/-- the last event of a long fragment that no call posts on -/
theorem Inv.drain_last (h : Inv s) (he : Ev.long f c ∈ s.events) (hlast : 0 ≥ s.reference f - 1)
    (hposts : posts s.pc (.long f) = false) : Inv (drain s (.long f c)) := by
  obtain ⟨hlen, -, hrefs⟩ := erase_counts he
  have hzero : refs (s.events.erase (.long f c)) f = 0 := by
    have := hrefs f
    have := h.reference f
    simp only [if_true] at *
    omega
  have hout : inUse (s.events.erase (.long f c)) s.pc (Ev.long f c).userPtr = false := by
    rw [Bool.eq_false_iff]
    intro hin
    rcases inUse_iff.mp hin with ⟨e', he', hx⟩ | hp
    · exact refs_eq_zero hzero e' he' hx
    · exact absurd (hposts.symm.trans hp) Bool.noConfusion
  have hbounce : ∀ j, inUse (s.events.erase (.long f c)) s.pc (.bounce j) = inUse s.events s.pc (.bounce j) :=
    fun j => inUse_erase he Obj.noConfusion
  simp only [drain, if_pos hlast]
  refine ⟨⟨?_, ?_, Accounted.freed h.frees he hout, h.asserted, h.drain_completion he⟩, ?_, ?_, fun b' => ?_, fun g => ?_,
    fun f' c' hmem => h.given f' c' (List.mem_of_mem_erase hmem), h.posting⟩
  · have := h.slots
    simp only
    omega
  · have := h.pos
    simp only
    omega
  · simp only [hbounce]
    exact h.bounce
  · have hset := set_erase (k := Obj.long) (fun _ _ => Obj.long.inj) he rfl hout
    simp only [hset]
    exact h.long.free (inUse_iff.mpr (.inl ⟨_, he, rfl⟩))
  · exact (List.erase_sublist.count_le _).trans (h.once b')
  · have hg := hrefs g
    by_cases hgf : f = g
    · subst hgf
      simp [hzero]
    · simp only [if_neg hgf] at hg
      simp only [Function.update_of_ne (Ne.symm hgf), h.reference g]
      omega

/-- **Draining.** The queue may be read whenever the last event of a fragment comes after the last post on it. -/
theorem Inv.drain (h : Inv s) (he : e ∈ s.events)
    (hown : ∀ f c, e = .long f c → posts s.pc (.long f) = true → s.reference f ≠ 1) : Inv (drain s e) := by
  cases e with
  | bounce b => exact h.drain_bounce he
  | long f c =>
    by_cases hlast : 0 ≥ s.reference f - 1
    · refine h.drain_last he hlast (Bool.eq_false_iff.mpr fun hp => hown f c rfl hp ?_)
      have := h.reference f
      have := refs_pos he
      omega
    · exact h.drain_more he hlast

theorem Inv.drainEq (h : Inv s)
    (hown : e ∈ s.events → ∀ f c, e = .long f c → posts s.pc (.long f) = true → s.reference f ≠ 1) :
    Inv (drainEq s e) := by
  unfold PtlEvents.drainEq
  split
  · rename_i he
    exact h.drain he (hown he)
  · exact h

/-! ## Posting -/

/-- the allocation of an object that comes into use -/
theorem Accounted.alloced {events : List Ev} {pc : Pc}
    (h : ∀ x, s.allocs x = s.frees x + (inUse s.events s.pc x).toNat) (hfresh : inUse s.events s.pc x = false)
    (hnew : ∀ y, inUse events pc y = true ↔ y = x ∨ inUse s.events s.pc y = true) (y : Obj) :
    bump s.allocs x y = s.frees y + (inUse events pc y).toNat := by
  by_cases hy : y = x
  · rw [hy, bump_self, (hnew x).mpr (.inl rfl), h, hfresh]
    rfl
  · have hsame : inUse events pc y = inUse s.events s.pc y := by
      rw [Bool.eq_iff_iff, hnew y]
      simp [hy]
    rw [bump_ne _ hy, hsame]
    exact h y

theorem set_alloc {events : List Ev} {pc : Pc} {k : ℕ → Obj} {i : ℕ} (hinj : Function.Injective k)
    (hnew : ∀ y, inUse events pc y = true ↔ y = k i ∨ inUse s.events s.pc y = true) :
    {j | inUse events pc (k j) = true} = insert i {j | inUse s.events s.pc (k j) = true} := by
  ext j
  simp only [Set.mem_ofPred_eq, Set.mem_insert_iff, hnew, hinj.eq_iff]

theorem set_other {events : List Ev} {pc : Pc} {k : ℕ → Obj} (hk : ∀ j, k j ≠ x)
    (hnew : ∀ y, inUse events pc y = true ↔ y = x ∨ inUse s.events s.pc y = true) :
    {j | inUse events pc (k j) = true} = {j | inUse s.events s.pc (k j) = true} := by
  ext j
  simp only [Set.mem_ofPred_eq, hnew, hk j, false_or]

theorem Inv.postBounce (h : Inv s) (hroom : ¬ throttled s) (hp : ∀ x, posts s.pc x = false) : Inv (postBounce s) := by
  obtain ⟨hfresh, htracks⟩ := h.bounce.alloc
  have hfresh : inUse s.events s.pc (.bounce s.bounce_buffers.alloc.1) = false := Bool.eq_false_iff.mpr hfresh
  have hnew : ∀ y, inUse (.bounce s.bounce_buffers.alloc.1 :: s.events) .idle y = true ↔
      y = .bounce s.bounce_buffers.alloc.1 ∨ inUse s.events s.pc y = true := by
    intro y
    rw [inUse_cons, inUse_iff, inUse_iff, hp]
    rfl
  unfold throttled at hroom
  refine ⟨⟨?_, ?_, Accounted.alloced h.frees hfresh hnew, h.asserted, fun c => ?_⟩, ?_, ?_, fun b => ?_, fun f => ?_,
    fun f c hmem => ?_, fun f c len sent hpc => absurd hpc Pc.noConfusion⟩
  · have := h.slots
    simp only [PtlEvents.postBounce, List.length_cons]
    omega
  · simp only [PtlEvents.postBounce]
    omega
  · simp only [PtlEvents.postBounce]
    exact h.completion c
  · simp only [PtlEvents.postBounce, set_alloc (fun _ _ => Obj.bounce.inj) hnew]
    exact htracks
  · simp only [PtlEvents.postBounce, set_other (k := Obj.long) (fun _ => Obj.noConfusion) hnew]
    exact h.long
  · simp only [PtlEvents.postBounce, List.count_cons]
    have hb := h.once b
    split
    · rename_i heq
      -- no event is left for a buffer that was free
      have hzero : s.events.count (.bounce b) = 0 := by
        refine List.count_eq_zero.mpr fun hmem => ?_
        have hin : inUse s.events s.pc (.bounce b) = true := inUse_iff.mpr (.inl ⟨_, hmem, rfl⟩)
        rw [← Ev.bounce.inj (beq_iff_eq.mp heq), hfresh] at hin
        exact absurd hin Bool.noConfusion
      omega
    · omega
  · simp only [PtlEvents.postBounce, refs, Ev.userPtr, List.countP_cons]
    exact h.reference f
  · rcases List.mem_cons.mp hmem with heq | hmem
    · exact absurd heq Ev.noConfusion
    · exact h.given f c hmem

/-- a long fragment is allocated for a call that will post on it -/
theorem Inv.allocFrag (h : Inv s) (hp : ∀ x, posts s.pc x = false) (c : ℕ) {len : ℕ} (hlen : 0 < len) :
    Inv { (allocFrag s c).2 with pc := .chunks (allocFrag s c).1 c len 0 } := by
  obtain ⟨hfresh, htracks⟩ := h.long.alloc
  have hfresh : inUse s.events s.pc (.long s.long_frags.alloc.1) = false := Bool.eq_false_iff.mpr hfresh
  have hnew : ∀ y, inUse s.events (.chunks s.long_frags.alloc.1 c len 0) y = true ↔
      y = .long s.long_frags.alloc.1 ∨ inUse s.events s.pc y = true := by
    intro y
    rw [inUse_iff, inUse_iff, hp]
    simp [posts, hlen, or_comm]
  have hnone : ∀ e ∈ s.events, e.userPtr ≠ .long s.long_frags.alloc.1 := by
    intro e he hx
    exact absurd (hfresh.symm.trans (inUse_iff.mpr (.inl ⟨e, he, hx⟩))) Bool.noConfusion
  have hzero : s.reference s.long_frags.alloc.1 = 0 := by
    rw [h.reference, refs, List.countP_eq_zero.mpr fun e he => by simpa using hnone e he]
    rfl
  refine ⟨⟨h.slots, h.pos, Accounted.alloced h.frees hfresh hnew, ?_, h.completion⟩, ?_, ?_, h.once, h.reference,
    fun f c' hmem => ?_, fun f c' len' sent hpc _ => ?_⟩
  · simp [PtlEvents.allocFrag, h.asserted, hzero]
  · simp only [PtlEvents.allocFrag, set_other (k := Obj.bounce) (fun _ => Obj.noConfusion) hnew]
    exact h.bounce
  · simp only [PtlEvents.allocFrag, set_alloc (fun _ _ => Obj.long.inj) hnew]
    exact htracks
  · have hne : f ≠ s.long_frags.alloc.1 := by
      rintro rfl
      exact hnone _ hmem rfl
    exact (Function.update_of_ne hne _ _).trans (h.given f c' hmem)
  · obtain ⟨rfl, rfl, -⟩ := Pc.chunks.inj hpc
    exact Function.update_self _ _ _

/-- an operation on the fragment of the call; pc is where the call goes on -/
theorem Inv.postOn {len sent : ℕ} (h : Inv s) (hroom : ¬ throttled s) (hpc : s.pc = .chunks f c len sent)
    (hlt : sent < len) {pc : Pc} (hnext : pc = .idle ∨ ∃ sent', pc = .chunks f c len sent') :
    Inv { postOn s f c with pc := pc } := by
  have hcomp : s.completionOf f = c := h.posting f c len sent hpc hlt
  have hposts : ∀ y, posts s.pc y = true ↔ y = .long f := by
    intro y
    simp [hpc, posts, hlt]
  have hnew : ∀ y, inUse (.long f c :: s.events) pc y = inUse s.events s.pc y := by
    intro y
    rw [Bool.eq_iff_iff, inUse_cons, inUse_iff, inUse_iff, hposts]
    have hy : posts pc y = true → y = .long f := by
      intro hy
      rcases hnext with rfl | ⟨sent', rfl⟩
      · exact absurd hy Bool.noConfusion
      · simp only [posts, Bool.and_eq_true, decide_eq_true_eq] at hy
        exact hy.2
    constructor
    · rintro (hyf | hev | hpost)
      · exact .inr hyf
      · exact .inl hev
      · exact .inr (hy hpost)
    · rintro (hev | hyf)
      · exact .inr (.inl hev)
      · exact .inl hyf
  unfold throttled at hroom
  refine ⟨⟨?_, ?_, fun y => ?_, h.asserted, fun c' => ?_⟩, ?_, ?_, fun b => ?_, fun g => ?_, fun f' c' hmem => ?_,
    fun f' c' len' sent' hpc' hlt' => ?_⟩
  · have := h.slots
    simp only [PtlEvents.postOn, List.length_cons]
    omega
  · simp only [PtlEvents.postOn]
    omega
  · simp only [PtlEvents.postOn, hnew]
    exact h.frees y
  · simp only [PtlEvents.postOn, hcomp, List.countP_cons, Ev.given]
    by_cases hcc : c = c'
    · subst hcc
      simp [h.completion c]
    · simp [Function.update_of_ne (Ne.symm hcc), h.completion c', hcc]
  · simp only [PtlEvents.postOn, hnew]
    exact h.bounce
  · simp only [PtlEvents.postOn, hnew]
    exact h.long
  · simp only [PtlEvents.postOn, List.count_cons]
    simpa using h.once b
  · simp only [PtlEvents.postOn, refs, List.countP_cons, Ev.userPtr]
    by_cases hgf : f = g
    · subst hgf
      simp [h.reference f, refs, Ev.userPtr]
    · simp [Function.update_of_ne (Ne.symm hgf), h.reference g, refs, hgf]
      rfl
  · rcases List.mem_cons.mp hmem with heq | hmem
    · obtain ⟨rfl, rfl⟩ := Ev.long.inj heq
      exact hcomp
    · exact h.given f' c' hmem
  · rcases hnext with rfl | ⟨sent'', rfl⟩
    · exact absurd hpc' Pc.noConfusion
    · obtain ⟨rfl, rfl, -⟩ := Pc.chunks.inj hpc'
      exact hcomp

theorem Inv.postLong (h : Inv s) (hroom : ¬ throttled s) (hp : ∀ x, posts s.pc x = false) (c : ℕ) :
    Inv (postLong s c) :=
  (h.allocFrag hp c Nat.one_pos).postOn hroom rfl Nat.one_pos (.inl rfl)

/-! ## Runs -/

theorem inv_init : Inv init := by
  refine ⟨⟨by decide, by decide, fun _ => rfl, rfl, fun _ => rfl⟩, ?_, ?_, fun _ => Nat.zero_le _, fun _ => rfl,
    fun f c hmem => absurd hmem List.not_mem_nil, fun f c len sent hpc => absurd hpc Pc.noConfusion⟩
  · simpa [init, inUse, posts] using FreeList.tracks_init
  · simpa [init, inUse, posts] using FreeList.tracks_init

theorem Inv.call (h : Inv s) (hidle : s.pc = .idle) (k : Call) : Inv (call P s k) := by
  have hp : ∀ x, posts s.pc x = false := fun x => by rw [hidle]; rfl
  have hgoto : ∀ pc, (∀ x, posts pc x = false) → Inv { s with pc := pc } := by
    intro pc hpc
    refine h.goto (fun x => (hpc x).trans (hp x).symm) fun f c len sent heq hlt => ?_
    have := hpc (.long f)
    rw [heq] at this
    simp [posts, hlt] at this
  cases k with
  | putNb opt len c =>
    simp only [PtlEvents.call, putNbInternal]
    split_ifs
    · exact h
    · exact hgoto _ fun _ => rfl
    · exact hgoto _ fun _ => rfl
    · exact h
  | atomicv len c =>
    simp only [PtlEvents.call, atomicv]
    split_ifs with hvol hbb
    · exact h
    · exact hgoto _ fun _ => rfl
    · exact h.allocFrag hp c (by omega)
  | putWait opt c =>
    simp only [PtlEvents.call]
    split_ifs
    · exact hgoto _ fun _ => rfl
    · exact h
  | drainEq => exact hgoto _ fun _ => rfl

theorem Inv.next (h : Inv s) (e : Ev) (hown : ¬ FreesOwn s (.next e)) : Inv (next P s e) := by
  unfold PtlEvents.next
  split
  · exact h
  · rename_i hpc
    have hp : ∀ x, posts s.pc x = false := fun x => by rw [hpc]; rfl
    split_ifs with hfull
    · exact h.drainEq fun _ f c _ hpost => absurd ((hp _).symm.trans hpost) Bool.noConfusion
    · exact h.postBounce hfull hp
  · rename_i c hpc
    have hp : ∀ x, posts s.pc x = false := fun x => by rw [hpc]; rfl
    split_ifs with hfull
    · exact h.drainEq fun _ f c _ hpost => absurd ((hp _).symm.trans hpost) Bool.noConfusion
    · exact h.postLong hfull hp c
  · rename_i f c len sent hpc
    split_ifs with hlt hfull
    · refine h.drainEq fun he g c' heq hpost hone => hown ?_
      subst heq
      exact ⟨hfull, he, hpost, hone⟩
    · exact h.postOn hfull hpc hlt (.inr ⟨_, rfl⟩)
    · refine h.goto (fun x => ?_) fun f c len sent heq => absurd heq Pc.noConfusion
      simp [posts, hpc, hlt]
  · rename_i c hpc
    have hp : ∀ x, posts s.pc x = false := fun x => by rw [hpc]; rfl
    split_ifs
    · exact h.drainEq fun _ f c _ hpost => absurd ((hp _).symm.trans hpost) Bool.noConfusion
    · exact h.goto (fun x => (hp x).symm) fun f c len sent heq => absurd heq Pc.noConfusion
  · rename_i hpc
    have hp : ∀ x, posts s.pc x = false := fun x => by rw [hpc]; rfl
    split_ifs with he
    · have hdrain : Inv (PtlEvents.drain s e) :=
        h.drain he fun f c _ hpost => absurd ((hp _).symm.trans hpost) Bool.noConfusion
      have hsame : (PtlEvents.drain s e).pc = s.pc := by
        cases e with
        | bounce b => rfl
        | long f c =>
          simp only [PtlEvents.drain]
          split_ifs <;> rfl
      refine hdrain.goto (fun x => ?_) fun f c len sent heq => absurd heq Pc.noConfusion
      rw [hsame, hp]
      rfl
    · exact h

theorem Inv.step (h : Inv s) (o : Op) (hown : ¬ FreesOwn s o) : Inv (step P s o) := by
  cases o with
  | call k =>
    simp only [PtlEvents.step]
    split_ifs with hidle
    · exact h.call hidle k
    · exact h
  | next e => exact h.next e hown

/-- when the loop reads the last event of its own fragment, the fragment is free and the loop posts on it -/
theorem Inv.not_accounted (h : Inv s) (o : Op) (hown : FreesOwn s o) : ¬ Accounted (PtlEvents.step P s o) := by
  intro hacc
  cases o with
  | call k => exact hown
  | next e =>
    cases e with
    | bounce b => exact hown
    | long f c =>
      obtain ⟨hfull, he, hpost, hone⟩ := hown
      have hin : inUse s.events s.pc (.long f) = true := inUse_iff.mpr (.inr hpost)
      have hbefore := h.frees (.long f)
      rw [hin] at hbefore
      have hdrain : PtlEvents.step P s (.next (.long f c)) = PtlEvents.drain s (.long f c) := by
        cases hpc : s.pc with
        | chunks f' c' len sent =>
          rw [hpc] at hpost
          simp only [posts, Bool.and_eq_true, decide_eq_true_eq] at hpost
          simp only [PtlEvents.step, PtlEvents.next, hpc, if_pos hpost.1, if_pos hfull, PtlEvents.drainEq, if_pos he]
        | _ =>
          rw [hpc] at hpost
          exact absurd hpost Bool.noConfusion
      have hlast : 0 ≥ s.reference f - 1 := by omega
      have hafter := hacc.frees (.long f)
      rw [hdrain] at hafter
      simp only [PtlEvents.drain, if_pos hlast, bump_self] at hafter
      rw [inUse_iff.mpr (.inr hpost)] at hafter
      simp only [Bool.toNat_true] at hbefore hafter
      omega

/-- **Exact accounting.** In every state of a run the slots and the undelivered events add up to 2048 with a slot left,
every object has been returned once for each allocation and stays allocated while an event refers to it or its call will
post on it, no assertion has failed and the completion variables count their undelivered events, if and only if the
throttling loop of atomicv never reads the last event of the fragment that the call still posts on. -/
theorem accounted_iff (P : Params) (ops : List Op) :
    (∀ n, Accounted (Runs.run (step P) init (ops.take n))) ↔
      Runs.Meets (step P) (fun s o => ¬ FreesOwn s o) init ops :=
  Runs.forall_take_iff_meets (step P) _ Inv Accounted (fun _ h => h.toAccounted) (fun _ o hown h => h.step o hown)
    (fun _ o h hown => h.not_accounted o (not_not.mp hown)) init inv_init ops

/-! ## A full queue -/

def ni : Params := ⟨64, 4096, 512⟩

/-- a put of 1000 bytes, which needs a bounce buffer -/
def fill : List Op := [.call (.putNb true 1000 0), .next (.bounce 0)]

def fills (n : ℕ) : List Op := (List.replicate n fill).flatten

/-- an atomic of 1024 bytes in two operations; the event of the first is delivered while there is no slot for the second -/
def twoChunks : List Op := [.call (.atomicv 1024 1), .next (.bounce 0), .next (.long 0 1)]

/-- after n puts -/
structure Filled (n : ℕ) (s : St) : Prop where
  inv : Inv s
  pc : s.pc = .idle
  slots : s.event_slots = 2048 - n
  long_frags : s.long_frags = FreeList.init
  reference : s.reference = fun _ => 0

theorem Filled.fill {n : ℕ} (h : Filled n s) (hn : n < 2046) : Filled (n + 1) (Runs.run (step ni) s fill) := by
  have hcall : step ni s (.call (.putNb true 1000 0)) = { s with pc := .bouncePost } := by
    simp [step, h.pc, call, putNbInternal, ni]
  have hroom : ¬ throttled { s with pc := .bouncePost } := by
    have := h.slots
    simp only [throttled]
    omega
  have hpost : Runs.run (step ni) s PtlEvents.fill = postBounce { s with pc := .bouncePost } := by
    rw [PtlEvents.fill, Runs.run_cons, hcall, Runs.run_cons]
    simp only [step, next, if_neg hroom, Runs.run_nil]
  have hinv : Inv { s with pc := .bouncePost } := hcall ▸ h.inv.step (P := ni) (.call (.putNb true 1000 0)) not_false
  rw [hpost]
  refine ⟨hinv.postBounce hroom fun _ => rfl, rfl, ?_, h.long_frags, h.reference⟩
  have := h.slots
  simp only [postBounce]
  push_cast
  omega

theorem filled_run (n : ℕ) (hn : n ≤ 2046) : Filled n (Runs.run (step ni) init (fills n)) := by
  induction n with
  | zero => exact ⟨inv_init, rfl, rfl, rfl, rfl⟩
  | succ n ih =>
    rw [fills, List.replicate_succ', List.flatten_append, Runs.run_append, List.flatten_singleton]
    exact (ih (by omega)).fill (by omega)

theorem Filled.twoChunks (h : Filled 2046 s) : ¬ Accounted (Runs.run (step ni) s twoChunks) := by
  have hslots : s.event_slots = 2 := h.slots.trans (by norm_num)
  have hf : (allocFrag s 1).1 = 0 := by
    simp only [allocFrag, h.long_frags]
    rfl
  have hcall : step ni s (.call (.atomicv 1024 1)) = { (allocFrag s 1).2 with pc := .chunks 0 1 1024 0 } := by
    simp [step, h.pc, call, atomicv, ni, hf]
  have hinv := (h.inv.step (P := ni) (.call (.atomicv 1024 1)) not_false).step (P := ni) (.next (.bounce 0)) not_false
  rw [PtlEvents.twoChunks, Runs.run_cons, Runs.run_cons, Runs.run_cons, Runs.run_nil]
  refine hinv.not_accounted _ ?_
  rw [hcall]
  have hroom : ¬ throttled { (allocFrag s 1).2 with pc := .chunks 0 1 1024 0 } := by
    simp [throttled, allocFrag, hslots]
  have hpost : step ni { (allocFrag s 1).2 with pc := .chunks 0 1 1024 0 } (.next (.bounce 0)) =
      { postOn { (allocFrag s 1).2 with pc := .chunks 0 1 1024 0 } 0 1 with pc := .chunks 0 1 1024 512 } := by
    simp only [step, next, if_neg hroom]
    rfl
  rw [hpost]
  refine ⟨?_, List.mem_cons_self, rfl, ?_⟩
  · simp [throttled, postOn, allocFrag, hslots]
  · simp [postOn, allocFrag, h.reference]

/-- 2046 puts and then the atomic: its fragment is returned to the free list while the call still posts on it -/
theorem full_queue_frees_own : ¬ Accounted (Runs.run (step ni) init (fills 2046 ++ twoChunks)) := by
  rw [Runs.run_append]
  exact (filled_run 2046 (le_refl _)).twoChunks

end SandiaShmem.Transport.PtlEvents
