/-
The invariant of the MCS lock, and what follows from it.

`Inv J s q g` relates the words of the lock to a queue q of PEs (oldest first) and a flag g (the head of q holds the
lock): `last` names the youngest queued PE; the NEXT field of a queued PE names the PE queued just behind it, or that PE
still has to store it (`Link`); only the head of the queue can have its SIGNAL bit set, and it has it set whenever it
waits. `step_inv` shows that every step keeps it while q and g follow the events of the step, so that the history of
every run is accepted by the abstract lock `FifoLock`, in the state (q, g).

- `mutual_exclusion`: at most one PE holds the lock.
- `fifo_hand_off`: the lock is acquired in the order of the swaps and successful cswaps on `last`, and no queued PE is
  lost (`HandOff`).
-/
import SandiaShmem.Lock.Mcs

namespace SandiaShmem.Lock

open FifoLock (Ev)

/-! ## The invariant -/

/-- the PE is between its swap or successful cswap on `last` and the end of its release -/
def Pc.queued : Pc → Bool
  | .idle | .setInit | .setSwap | .testInit | .testCswap => false
  | _ => true

/-- the PE waits for its SIGNAL bit -/
def Pc.waiting : Pc → Bool
  | .setFetch | .setWait _ => true
  | _ => false

/-- the PE has the lock and has not given it up -/
def Pc.owns : Pc → Bool
  | .held | .clearCswap | .clearFetch | .clearWait _ | .clearSignal _ => true
  | _ => false

/-- the PE has found that somebody is queued behind it -/
def Pc.passing : Pc → Bool
  | .clearFetch | .clearWait _ | .clearSignal _ => true
  | _ => false

/-- b is queued just behind a: either b still has to store itself in a's NEXT field, or it is stored there -/
def Link (s : St) (a b : ℕ) : Prop :=
  (s.pc b = .setLink (me a) ∧ NEXT (s.data a) = 0) ∨ ((s.pc b).waiting = true ∧ NEXT (s.data a) = me b)

/-- what `last` holds for a queue -/
def lastWord (q : List ℕ) : Word :=
  match q.getLast? with
  | none => 0
  | some p => me p

structure Inv (J : Job) (s : St) (q : List ℕ) (g : Bool) : Prop where
  nodup : q.Nodup
  lt : ∀ p ∈ q, p < J.numPes
  mem : ∀ p, p ∈ q ↔ (s.pc p).queued = true
  last : s.last = lastWord q
  chain : q.IsChain (Link s)
  /-- nobody is linked behind the youngest queued PE -/
  youngest : ∀ p, q.getLast? = some p → NEXT (s.data p) = 0
  head : ∀ p, q.head? = some p →
    if g then (s.pc p).owns = true else (s.pc p).waiting = true ∧ SIGNAL (s.data p) ≠ 0
  /-- only the head can have been signalled -/
  tail : ∀ p ∈ q.tail, SIGNAL (s.data p) = 0
  granted : g = true → q ≠ []
  passing : ∀ p, (s.pc p).passing = true → q.getLast? ≠ some p
  signal : ∀ p d, s.pc p = .clearSignal d → NEXT d = NEXT (s.data p) ∧ NEXT d ≠ 0
  /-- between the zeroing of the own word and the swap nobody writes the word -/
  fresh : ∀ p, s.pc p = .setSwap ∨ s.pc p = .testCswap → s.data p = 0

theorem inv_init (J : Job) : Inv J init [] false := by
  constructor <;> simp [init, lastWord, Pc.queued, Pc.passing]

section
variable {J : Job} {s : St} {q : List ℕ} {g : Bool} {p : ℕ}

theorem Inv.lt_int (h : Inv J s q g) {a : ℕ} (ha : a ∈ q) : a + 1 < 2 ^ 31 := by
  have := h.lt a ha
  have := J.int
  omega

/-- a queued PE that is not the head waits or still has to link itself -/
theorem Inv.tail_pc (h : Inv J s q g) (hp : p ∈ q.tail) : (s.pc p).owns = false := by
  obtain ⟨x, xs, rfl⟩ : ∃ x xs, q = x :: xs := by
    cases q with
    | nil => simp at hp
    | cons x xs => exact ⟨x, xs, rfl⟩
  obtain ⟨l1, l2, hl⟩ := List.append_of_mem (List.tail_cons ▸ hp)
  have hc := h.chain
  rw [hl] at hc
  obtain ⟨a, l1', hl1⟩ : ∃ a l1', x :: l1 = l1' ++ [a] :=
    ⟨(x :: l1).getLast (by simp), (x :: l1).dropLast, (List.dropLast_concat_getLast _).symm⟩
  have he : x :: (l1 ++ p :: l2) = l1' ++ a :: p :: l2 := by
    rw [← List.cons_append, hl1]; simp
  rw [he, List.isChain_append_cons_cons] at hc
  rcases hc.2.1 with ⟨h1, -⟩ | ⟨h1, -⟩
  · rw [h1]; rfl
  · revert h1; cases s.pc p <;> simp [Pc.waiting, Pc.owns]

theorem owns_queued {c : Pc} (h : c.owns = true) : c.queued = true := by
  cases c <;> simp [Pc.owns, Pc.queued] at h ⊢

theorem waiting_not_owns {c : Pc} (h : c.waiting = true) : c.owns = false := by
  cases c <;> simp [Pc.waiting, Pc.owns] at h ⊢

/-- a PE that owns the lock is the head of the queue, and the head is granted -/
theorem Inv.owner_head (h : Inv J s q g) (hp : (s.pc p).owns = true) : q.head? = some p ∧ g = true := by
  have hm : p ∈ q := (h.mem p).2 (owns_queued hp)
  cases q with
  | nil => simp at hm
  | cons x xs =>
    rcases List.mem_cons.1 hm with rfl | hx
    · refine ⟨rfl, ?_⟩
      cases g with
      | true => rfl
      | false =>
        have := (h.head p rfl)
        simp only [Bool.false_eq_true, if_false] at this
        rw [waiting_not_owns this.1] at hp
        exact absurd hp (by decide)
    · have := h.tail_pc (p := p) (by simpa using hx)
      rw [this] at hp
      exact absurd hp (by decide)

/-- a queued PE whose SIGNAL bit is set is the head of the queue -/
theorem Inv.signal_head (h : Inv J s q g) (hm : p ∈ q) (hs : SIGNAL (s.data p) ≠ 0) : q.head? = some p := by
  cases q with
  | nil => simp at hm
  | cons x xs =>
    rcases List.mem_cons.1 hm with rfl | hx
    · rfl
    · exact absurd (h.tail p (by simpa using hx)) hs

/-- `last` is zero exactly when nobody is queued -/
theorem Inv.last_zero (h : Inv J s q g) : s.last = 0 ↔ q = [] := by
  rw [h.last]
  cases hq : q.getLast? with
  | none =>
    simp only [List.getLast?_eq_none_iff] at hq
    simp [hq, lastWord]
  | some x =>
    have hx : x ∈ q := List.mem_of_getLast? hq
    have hne := me_ne_zero (p := x) (by have := h.lt_int hx; omega)
    simp only [lastWord, hq]
    exact ⟨fun he => absurd he hne, fun he => by rw [he] at hx; simp at hx⟩

/-! ## The steps -/

/-- a step that only moves PE p inside the code, without a change of its role -/
theorem Inv.goto (h : Inv J s q g) (c : Pc) (hq : c.queued = (s.pc p).queued) (hw : c.waiting = (s.pc p).waiting)
    (ho : c.owns = (s.pc p).owns) (hl : ∀ w, s.pc p ≠ .setLink w) (hpass : c.passing = true → q.getLast? ≠ some p)
    (hsig : ∀ d, c = .clearSignal d → NEXT d = NEXT (s.data p) ∧ NEXT d ≠ 0)
    (hfr : ¬ (c = .setSwap ∨ c = .testCswap)) : Inv J (s.goto p c) q g := by
  have hpc : ∀ x, x ≠ p → (s.goto p c).pc x = s.pc x := fun x hx => Function.update_of_ne hx _ _
  have hself : (s.goto p c).pc p = c := Function.update_self _ _ _
  refine ⟨h.nodup, h.lt, ?_, h.last, ?_, h.youngest, ?_, h.tail, h.granted, ?_, ?_, ?_⟩
  · intro x
    by_cases hx : x = p
    · subst hx; rw [hself, hq]; exact h.mem x
    · rw [hpc x hx]; exact h.mem x
  · refine h.chain.imp fun a b hab => ?_
    by_cases hb : b = p
    · subst hb
      rcases hab with ⟨h1, -⟩ | ⟨h1, h2⟩
      · exact absurd h1 (hl _)
      · exact Or.inr ⟨by rw [hself, hw]; exact h1, h2⟩
    · unfold Link; rw [hpc b hb]; exact hab
  · intro x hx
    have := h.head x hx
    by_cases hxp : x = p
    · subst hxp; rw [hself, ho, hw]; exact this
    · rw [hpc x hxp]; exact this
  · intro x hx
    by_cases hxp : x = p
    · subst hxp; rw [hself] at hx; exact hpass hx
    · rw [hpc x hxp] at hx; exact h.passing x hx
  · intro x d hx
    by_cases hxp : x = p
    · subst hxp; rw [hself] at hx; exact hsig d hx
    · rw [hpc x hxp] at hx; exact h.signal x d hx
  · intro x hx
    by_cases hxp : x = p
    · subst hxp; rw [hself] at hx; exact absurd hx hfr
    · rw [hpc x hxp] at hx; exact h.fresh x hx

/-- zeroing the own word: the PE is not queued, so no queued PE's word changes -/
theorem Inv.zero (h : Inv J s q g) (c : Pc) (hnq : (s.pc p).queued = false) (hc : c = .setSwap ∨ c = .testCswap) :
    Inv J ((s.store p 0).goto p c) q g := by
  have hp : p ∉ q := fun hm => by rw [(h.mem p).1 hm] at hnq; exact absurd hnq (by decide)
  have hpc : ∀ x, x ≠ p → ((s.store p 0).goto p c).pc x = s.pc x := fun x hx => Function.update_of_ne hx _ _
  have hself : ((s.store p 0).goto p c).pc p = c := Function.update_self _ _ _
  have hdat : ∀ x, x ≠ p → ((s.store p 0).goto p c).data x = s.data x := fun x hx => Function.update_of_ne hx _ _
  have hne : ∀ x ∈ q, x ≠ p := fun x hx he => hp (he ▸ hx)
  have hcq : c.queued = false ∧ c.passing = false ∧ ∀ d, c ≠ .clearSignal d := by
    rcases hc with rfl | rfl <;> simp [Pc.queued, Pc.passing]
  refine ⟨h.nodup, h.lt, ?_, h.last, ?_, ?_, ?_, ?_, h.granted, ?_, ?_, ?_⟩
  · intro x
    by_cases hx : x = p
    · subst hx; rw [hself, hcq.1]; simp [hp]
    · rw [hpc x hx]; exact h.mem x
  · refine h.chain.imp_of_mem_imp fun a b ha hb hab => ?_
    unfold Link
    rw [hpc b (hne b hb), hdat a (hne a ha)]
    exact hab
  · intro x hx; rw [hdat x (hne x (List.mem_of_getLast? hx))]; exact h.youngest x hx
  · intro x hx
    have hxp := hne x (List.mem_of_head? hx)
    rw [hpc x hxp, hdat x hxp]; exact h.head x hx
  · intro x hx; rw [hdat x (hne x (List.mem_of_mem_tail hx))]; exact h.tail x hx
  · intro x hx
    by_cases hxp : x = p
    · subst hxp; rw [hself, hcq.2.1] at hx; exact absurd hx (by decide)
    · rw [hpc x hxp] at hx; exact h.passing x hx
  · intro x d hx
    by_cases hxp : x = p
    · subst hxp; rw [hself] at hx; exact absurd hx (hcq.2.2 d)
    · rw [hpc x hxp] at hx; rw [hdat x hxp]; exact h.signal x d hx
  · intro x hx
    by_cases hxp : x = p
    · subst hxp; exact Function.update_self _ _ _
    · rw [hpc x hxp] at hx; rw [hdat x hxp]; exact h.fresh x hx

/-- the swap on `last` behind a non-empty queue -/
theorem Inv.enqueue (h : Inv J s q g) {y : ℕ} (hp : p < J.numPes) (hpc : s.pc p = .setSwap)
    (hy : q.getLast? = some y) : Inv J ((s.setLast (me p)).goto p (.setLink (me y))) (q ++ [p]) g := by
  have hnq : p ∉ q := fun hm => by have := (h.mem p).1 hm; rw [hpc] at this; exact absurd this (by decide)
  have hd : s.data p = 0 := h.fresh p (Or.inl hpc)
  have hne : ∀ x ∈ q, x ≠ p := fun x hx he => hnq (he ▸ hx)
  have hqne : q ≠ [] := fun he => by rw [he] at hy; simp at hy
  set s' := (s.setLast (me p)).goto p (.setLink (me y))
  have hoth : ∀ x, x ≠ p → s'.pc x = s.pc x := fun x hx => Function.update_of_ne hx _ _
  have hself : s'.pc p = .setLink (me y) := Function.update_self _ _ _
  refine ⟨?_, ?_, ?_, ?_, ?_, ?_, ?_, ?_, ?_, ?_, ?_, ?_⟩
  · exact List.nodup_append.2 ⟨h.nodup, List.nodup_singleton _, by
      intro a ha b hb; simp at hb; subst hb; exact hne a ha⟩
  · intro x hx
    rcases List.mem_append.1 hx with hx | hx
    · exact h.lt x hx
    · simp at hx; subst hx; exact hp
  · intro x
    by_cases hx : x = p
    · subst hx; rw [hself]; simp [Pc.queued]
    · rw [hoth x hx, ← h.mem x]; simp [hx]
  · simp [s', lastWord]
  · refine List.isChain_append.2 ⟨?_, List.IsChain.singleton _, ?_⟩
    · refine h.chain.imp_of_mem_imp fun a b _ hb hab => ?_
      unfold Link; rw [hoth b (hne b hb)]; exact hab
    · intro a ha b hb
      simp only [List.head?_cons, Option.mem_def, Option.some.injEq] at hb
      subst hb
      rw [hy] at ha
      simp only [Option.mem_def, Option.some.injEq] at ha
      subst ha
      exact Or.inl ⟨hself, h.youngest y hy⟩
  · intro x hx
    simp only [List.getLast?_append, List.getLast?_singleton, Option.some_or, Option.some.injEq] at hx
    subst hx
    show NEXT (s.data p) = 0
    rw [hd, NEXT_zero]
  · intro x hx
    rw [List.head?_append_of_ne_nil _ hqne] at hx
    rw [hoth x (hne x (List.mem_of_head? hx))]
    exact h.head x hx
  · intro x hx
    rw [List.tail_append_of_ne_nil hqne] at hx
    rcases List.mem_append.1 hx with hx | hx
    · exact h.tail x hx
    · simp at hx; subst hx
      show SIGNAL (s.data x) = 0
      rw [hd, SIGNAL_zero]
  · intro _; simp
  · intro x hx
    have hxp : x ≠ p := by rintro rfl; rw [hself] at hx; simp [Pc.passing] at hx
    simp [Ne.symm hxp]
  · intro x d hx
    have hxp : x ≠ p := by rintro rfl; rw [hself] at hx; exact absurd hx (by simp)
    rw [hoth x hxp] at hx; exact h.signal x d hx
  · intro x hx
    have hxp : x ≠ p := by rintro rfl; rw [hself] at hx; exact absurd hx (by simp)
    rw [hoth x hxp] at hx; exact h.fresh x hx

/-- the swap or the cswap on `last` when nobody is queued -/
theorem Inv.enqueue_first (h : Inv J s [] g) (hp : p < J.numPes) (hpc : s.pc p = .setSwap ∨ s.pc p = .testCswap) :
    Inv J ((s.setLast (me p)).goto p .held) [p] true := by
  have hd : s.data p = 0 := h.fresh p hpc
  set s' := (s.setLast (me p)).goto p .held
  have hoth : ∀ x, x ≠ p → s'.pc x = s.pc x := fun x hx => Function.update_of_ne hx _ _
  have hself : s'.pc p = .held := Function.update_self _ _ _
  have hnone : ∀ x, (s.pc x).queued = false := fun x => by
    have := (h.mem x).not.1 (by simp)
    simpa using this
  refine ⟨by simp, by simpa using hp, ?_, by simp [s', lastWord], List.IsChain.singleton _, ?_, ?_, by simp, by simp,
    ?_, ?_, ?_⟩
  · intro x
    by_cases hx : x = p
    · subst hx; rw [hself]; simp [Pc.queued]
    · rw [hoth x hx, hnone x]; simp [hx]
  · intro x hx
    simp only [List.getLast?_singleton, Option.some.injEq] at hx
    subst hx
    show NEXT (s.data p) = 0
    rw [hd, NEXT_zero]
  · intro x hx
    simp only [List.head?_cons, Option.some.injEq] at hx
    subst hx
    rw [hself]; simp [Pc.owns]
  · intro x hx
    by_cases hxp : x = p
    · subst hxp; rw [hself] at hx; exact absurd hx (by decide)
    · simp [Ne.symm hxp]
  · intro x d hx
    have hxp : x ≠ p := by rintro rfl; rw [hself] at hx; exact absurd hx (by simp)
    rw [hoth x hxp] at hx; exact h.signal x d hx
  · intro x hx
    have hxp : x ≠ p := by rintro rfl; rw [hself] at hx; exact absurd hx (by simp)
    rw [hoth x hxp] at hx; exact h.fresh x hx

/-- a PE that still has to link itself is queued behind the PE it will link itself to -/
theorem Inv.link_target (h : Inv J s q g) {w : Word} (hpc : s.pc p = .setLink w) :
    ∃ l₁ a l₂, q = l₁ ++ a :: p :: l₂ ∧ w = me a ∧ NEXT (s.data a) = 0 := by
  have hm : p ∈ q := (h.mem p).2 (by rw [hpc]; rfl)
  obtain ⟨l1, l2, hl⟩ := List.append_of_mem hm
  rcases List.eq_nil_or_concat l1 with rfl | ⟨l1', a, rfl⟩
  · have := h.head p (by simp [hl])
    rw [hpc] at this
    cases g <;> simp [Pc.owns, Pc.waiting] at this
  · have hc := h.chain
    rw [hl, List.concat_append] at hc
    have := (List.isChain_append_cons_cons.1 hc).2.1
    rw [Link, hpc] at this
    rcases this with ⟨h1, h2⟩ | ⟨h1, -⟩
    · exact ⟨l1', a, l2, by simp [hl], by simpa using h1, h2⟩
    · simp [Pc.waiting] at h1

/-- the mswap that stores PE p in the NEXT field of the PE before it -/
theorem Inv.link (h : Inv J s q g) {w : Word} (hpc : s.pc p = .setLink w) :
    Inv J ((s.store (peOf w) (mswap (s.data (peOf w)) (me p) NEXT_MASK)).goto p .setFetch) q g := by
  obtain ⟨l1, a, l2, hl, rfl, ha0⟩ := h.link_target hpc
  have ham : a ∈ q := by simp [hl]
  have hpm : p ∈ q := by simp [hl]
  have hnd : (l1 ++ a :: p :: l2).Nodup := hl ▸ h.nodup
  have hap : a ≠ p := by
    have := (List.nodup_append.1 hnd).2.1
    simp only [List.nodup_cons, List.mem_cons, not_or] at this
    exact this.1.1
  have hpi : p + 1 < 2 ^ 31 := h.lt_int hpm
  rw [peOf_me (by have := h.lt_int ham; omega)]
  set s' := (s.store a (mswap (s.data a) (me p) NEXT_MASK)).goto p .setFetch
  have hoth : ∀ x, x ≠ p → s'.pc x = s.pc x := fun x hx => Function.update_of_ne hx _ _
  have hself : s'.pc p = .setFetch := Function.update_self _ _ _
  have hdat : ∀ x, x ≠ a → s'.data x = s.data x := fun x hx => Function.update_of_ne hx _ _
  have hnext : NEXT (s'.data a) = me p := by
    show NEXT (Function.update s.data a _ a) = _
    rw [Function.update_self, NEXT_mswap_next, NEXT_me hpi]
  have hsigd : ∀ x, SIGNAL (s'.data x) = SIGNAL (s.data x) := by
    intro x
    by_cases hx : x = a
    · subst hx
      show SIGNAL (Function.update s.data x _ x) = _
      rw [Function.update_self, SIGNAL_mswap_next]
    · rw [hdat x hx]
  refine ⟨h.nodup, h.lt, ?_, h.last, ?_, ?_, ?_, ?_, h.granted, ?_, ?_, ?_⟩
  · intro x
    by_cases hx : x = p
    · subst hx; rw [hself]; simp [Pc.queued, hpm]
    · rw [hoth x hx]; exact h.mem x
  · -- only the link of p itself changes: a is the only PE whose NEXT field is written
    refine List.isChain_iff_forall_rel_of_append_cons_cons.2 fun x y m1 m2 hm => ?_
    have hxy : Link s x y := List.isChain_iff_forall_rel_of_append_cons_cons.1 h.chain hm
    by_cases hy : y = p
    · subst hy
      rcases hxy with ⟨h1, -⟩ | ⟨h1, -⟩
      · rw [hpc] at h1
        have hxm : x ∈ q := by simp [hm]
        have hax : a = x := me_inj (by have := h.lt_int ham; omega) (by have := h.lt_int hxm; omega) (by simpa using h1)
        subst hax
        exact Or.inr ⟨by rw [hself]; rfl, hnext⟩
      · rw [hpc] at h1; simp [Pc.waiting] at h1
    · have hxa : x ≠ a := by
        rintro rfl
        -- the PE behind x is p, so y = p
        apply hy
        have e : l1 ++ x :: p :: l2 = m1 ++ x :: y :: m2 := by rw [← hl, ← hm]
        have e' := (List.append_cons_inj_of_notMem
          (fun hx => (List.nodup_append.1 hnd).2.2 x hx x (by simp) rfl)
          (List.nodup_cons.1 (List.nodup_append.1 hnd).2.1).1).1 e
        exact (List.cons.inj e'.2.2).1.symm
      unfold Link
      rw [hoth y hy, hdat x hxa]
      exact hxy
  · intro x hx
    have hxa : x ≠ a := by
      rintro rfl
      have hxl : x ∈ p :: l2 := by
        rw [hl, List.getLast?_append_of_ne_nil _ (by simp), List.getLast?_cons_cons] at hx
        exact List.mem_of_getLast? hx
      have := (List.nodup_append.1 hnd).2.1
      exact (List.nodup_cons.1 this).1 hxl
    rw [hdat x hxa]; exact h.youngest x hx
  · intro x hx
    have hh := h.head x hx
    rw [hsigd]
    by_cases hxp : x = p
    · subst hxp
      rw [hpc] at hh
      cases g <;> simp [Pc.owns, Pc.waiting] at hh
    · rw [hoth x hxp]; exact hh
  · intro x hx; rw [hsigd]; exact h.tail x hx
  · intro x hx
    by_cases hxp : x = p
    · subst hxp; rw [hself] at hx; exact absurd hx (by decide)
    · rw [hoth x hxp] at hx; exact h.passing x hx
  · intro x d hx
    have hxp : x ≠ p := by rintro rfl; rw [hself] at hx; exact absurd hx (by simp)
    rw [hoth x hxp] at hx
    have hd := h.signal x d hx
    have hxa : x ≠ a := by rintro rfl; exact hd.2 (hd.1.trans ha0)
    rw [hdat x hxa]; exact hd
  · intro x hx
    have hxp : x ≠ p := by rintro rfl; rw [hself] at hx; exact absurd hx (by simp)
    rw [hoth x hxp] at hx
    have hxa : x ≠ a := by
      rintro rfl
      have := (h.mem x).1 ham
      rcases hx with hx | hx <;> rw [hx] at this <;> exact absurd this (by decide)
    rw [hdat x hxa]; exact h.fresh x hx

/-- the head of the queue sees its SIGNAL bit -/
theorem Inv.grant (h : Inv J s q g) (hpc : s.pc p = .setFetch) (hs : SIGNAL (s.data p) ≠ 0) :
    q.head? = some p ∧ g = false ∧ Inv J (s.goto p .held) q true := by
  have hm : p ∈ q := (h.mem p).2 (by rw [hpc]; rfl)
  have hhead := h.signal_head hm hs
  have hg : g = false := by
    cases g with
    | false => rfl
    | true => have := h.head p hhead; rw [hpc] at this; simp [Pc.owns] at this
  have hoth : ∀ x, x ≠ p → (s.goto p .held).pc x = s.pc x := fun x hx => Function.update_of_ne hx _ _
  have hself : (s.goto p .held).pc p = .held := Function.update_self _ _ _
  -- p is the head, so it is not queued behind anybody
  have htl : ∀ x ∈ q.tail, x ≠ p := by
    rintro x hx rfl
    cases q with
    | nil => simp at hm
    | cons y ys =>
      simp only [List.head?_cons, Option.some.injEq] at hhead
      subst hhead
      exact (List.nodup_cons.1 h.nodup).1 (by simpa using hx)
  refine ⟨hhead, hg, h.nodup, h.lt, ?_, h.last, ?_, h.youngest, ?_, h.tail, fun _ => by rintro rfl; simp at hm,
    ?_, ?_, ?_⟩
  · intro x
    by_cases hx : x = p
    · subst hx; rw [hself]; simp [Pc.queued, hm]
    · rw [hoth x hx]; exact h.mem x
  · refine h.chain.imp_of_mem_tail_imp fun a b _ hb hab => ?_
    unfold Link; rw [hoth b (htl b hb)]; exact hab
  · intro x hx
    rw [hhead] at hx
    simp only [Option.some.injEq] at hx
    subst hx
    rw [hself]; simp [Pc.owns]
  · intro x hx
    by_cases hxp : x = p
    · subst hxp; rw [hself] at hx; exact absurd hx (by decide)
    · rw [hoth x hxp] at hx; exact h.passing x hx
  · intro x d hx
    have hxp : x ≠ p := by rintro rfl; rw [hself] at hx; exact absurd hx (by simp)
    rw [hoth x hxp] at hx; exact h.signal x d hx
  · intro x hx
    have hxp : x ≠ p := by rintro rfl; rw [hself] at hx; exact absurd hx (by simp)
    rw [hoth x hxp] at hx; exact h.fresh x hx

/-- the releasing cswap on `last` succeeds only for the single queued PE -/
theorem Inv.release_last (h : Inv J s q g) (hp : p < J.numPes) (hpc : s.pc p = .clearCswap) (hl : s.last = me p) :
    q = [p] ∧ g = true ∧ Inv J ((s.setLast 0).goto p .idle) [] false := by
  obtain ⟨hhead, hg⟩ := h.owner_head (p := p) (by rw [hpc]; rfl)
  have hpi : p < 2 ^ 31 := hp.trans J.int
  have hq : q = [p] := by
    cases q with
    | nil => simp at hhead
    | cons x xs =>
      simp only [List.head?_cons, Option.some.injEq] at hhead
      subst hhead
      obtain ⟨y, hy⟩ : ∃ y, (x :: xs).getLast? = some y := ⟨_, List.getLast?_eq_some_getLast (by simp)⟩
      have hym : y ∈ x :: xs := List.mem_of_getLast? hy
      have hyx : y = x := by
        have hlast := h.last
        simp only [lastWord, hy] at hlast
        exact me_inj (by have := h.lt_int hym; omega) hpi (hlast.symm.trans hl)
      subst hyx
      cases xs with
      | nil => rfl
      | cons z zs =>
        rw [List.getLast?_cons_cons] at hy
        exact absurd (List.mem_of_getLast? hy) (List.nodup_cons.1 h.nodup).1
  subst hq
  refine ⟨rfl, hg, ?_⟩
  set s' := (s.setLast 0).goto p .idle
  have hoth : ∀ x, x ≠ p → s'.pc x = s.pc x := fun x hx => Function.update_of_ne hx _ _
  have hself : s'.pc p = .idle := Function.update_self _ _ _
  refine ⟨by simp, by simp, ?_, by simp [s', lastWord], by simp, by simp, by simp, by simp, by simp, by simp, ?_, ?_⟩
  · intro x
    by_cases hx : x = p
    · subst hx; rw [hself]; simp [Pc.queued]
    · rw [hoth x hx]
      have := h.mem x
      simpa [hx] using this
  · intro x d hx
    have hxp : x ≠ p := by rintro rfl; rw [hself] at hx; exact absurd hx (by simp)
    rw [hoth x hxp] at hx; exact h.signal x d hx
  · intro x hx
    have hxp : x ≠ p := by rintro rfl; rw [hself] at hx; exact absurd hx (by simp)
    rw [hoth x hxp] at hx; exact h.fresh x hx

/-- the holder that has read a NEXT link is the head, and the link names the PE queued behind it -/
theorem Inv.successor (h : Inv J s q g) {d : Word} (hpc : s.pc p = .clearSignal d) :
    ∃ b l, q = p :: b :: l ∧ NEXT d = me b ∧ (s.pc b).waiting = true := by
  obtain ⟨hhead, -⟩ := h.owner_head (p := p) (by rw [hpc]; rfl)
  obtain ⟨hd, hd0⟩ := h.signal p d hpc
  have hnl := h.passing p (by rw [hpc]; rfl)
  match q, h, hhead, hnl with
  | x :: [], _, hhead, hnl =>
    simp only [List.head?_cons, Option.some.injEq] at hhead
    subst hhead
    simp at hnl
  | x :: b :: l, h, hhead, _ =>
    simp only [List.head?_cons, Option.some.injEq] at hhead
    subst hhead
    rcases (List.isChain_cons_cons.1 h.chain).1 with ⟨-, h2⟩ | ⟨h1, h2⟩
    · exact absurd (hd.trans h2) hd0
    · exact ⟨b, l, rfl, hd.trans h2, h1⟩

/-- the mswap that sets the SIGNAL bit of the PE queued behind the holder -/
theorem Inv.pass (h : Inv J s q g) {d : Word} (hpc : s.pc p = .clearSignal d) :
    q.head? = some p ∧ g = true ∧ Inv J ((s.store (peOf (NEXT d))
      (mswap (s.data (peOf (NEXT d))) SIGNAL_MASK SIGNAL_MASK)).goto p .idle) q.tail false := by
  obtain ⟨hhead, hg⟩ := h.owner_head (p := p) (by rw [hpc]; rfl)
  obtain ⟨b, l, rfl, hdb, hw⟩ := h.successor hpc
  have hbm : b ∈ p :: b :: l := by simp
  rw [hdb, peOf_me (by have := h.lt_int hbm; omega)]
  refine ⟨hhead, hg, ?_⟩
  have hnd := h.nodup
  have hbp : b ≠ p := by
    have := (List.nodup_cons.1 hnd).1
    simp only [List.mem_cons, not_or] at this
    exact Ne.symm this.1
  set s' := (s.store b (mswap (s.data b) SIGNAL_MASK SIGNAL_MASK)).goto p .idle
  have hoth : ∀ x, x ≠ p → s'.pc x = s.pc x := fun x hx => Function.update_of_ne hx _ _
  have hself : s'.pc p = .idle := Function.update_self _ _ _
  have hdat : ∀ x, x ≠ b → s'.data x = s.data x := fun x hx => Function.update_of_ne hx _ _
  have hnext : ∀ x, NEXT (s'.data x) = NEXT (s.data x) := by
    intro x
    by_cases hx : x = b
    · subst hx
      show NEXT (Function.update s.data x _ x) = _
      rw [Function.update_self, NEXT_mswap_signal]
    · rw [hdat x hx]
  have hpt : ∀ x ∈ b :: l, x ≠ p := fun x hx he => (List.nodup_cons.1 hnd).1 (he ▸ hx)
  refine ⟨hnd.tail, fun x hx => h.lt x (List.mem_of_mem_tail hx), ?_, ?_, ?_, ?_, ?_, ?_, by simp, ?_, ?_, ?_⟩
  · intro x
    simp only [List.tail_cons]
    by_cases hx : x = p
    · subst hx
      rw [hself]
      simp only [Pc.queued, Bool.false_eq_true, iff_false]
      exact fun hm => hpt x hm rfl
    · rw [hoth x hx, ← h.mem x]; simp [hx]
  · show s.last = _
    rw [h.last]
    simp [lastWord, List.getLast?_cons_cons]
  · refine h.chain.tail.imp_of_mem_imp fun a c _ hc hac => ?_
    unfold Link
    rw [hoth c (hpt c hc), hnext a]
    exact hac
  · intro x hx
    rw [hnext]
    exact h.youngest x (by simpa [List.getLast?_cons_cons] using hx)
  · intro x hx
    simp only [List.tail_cons, List.head?_cons, Option.some.injEq] at hx
    subst hx
    rw [hoth b hbp]
    refine ⟨hw, ?_⟩
    show SIGNAL (Function.update s.data b _ b) ≠ 0
    rw [Function.update_self]
    exact SIGNAL_mswap_signal _
  · intro x hx
    simp only [List.tail_cons] at hx
    have hxb : x ≠ b := fun he => (List.nodup_cons.1 (List.nodup_cons.1 hnd).2).1 (he ▸ hx)
    rw [hdat x hxb]
    exact h.tail x (by simp [hx])
  · intro x hx
    have hxp : x ≠ p := by rintro rfl; rw [hself] at hx; exact absurd hx (by decide)
    rw [hoth x hxp] at hx
    have := h.passing x hx
    simpa [List.getLast?_cons_cons] using this
  · intro x d' hx
    have hxp : x ≠ p := by rintro rfl; rw [hself] at hx; exact absurd hx (by simp)
    rw [hoth x hxp] at hx
    rw [hnext]; exact h.signal x d' hx
  · intro x hx
    have hxp : x ≠ p := by rintro rfl; rw [hself] at hx; exact absurd hx (by simp)
    rw [hoth x hxp] at hx
    have hxb : x ≠ b := by
      rintro rfl
      rcases hx with hx | hx <;> rw [hx] at hw <;> exact absurd hw (by decide)
    rw [hdat x hxb]; exact h.fresh x hx

/-! ## Every step -/

/-- the invariant holds of a queue and a flag that the abstract lock reaches by the events es from (q, g) -/
def Follows (J : Job) (s : St) (q : List ℕ) (g : Bool) (es : List (Ev ℕ)) : Prop :=
  ∃ q' g', FifoLock.accepts ⟨q, g⟩ es = some ⟨q', g'⟩ ∧ Inv J s q' g'

theorem Follows.stay (h : Inv J s q g) : Follows J s q g [] := ⟨q, g, rfl, h⟩

theorem exec_inv (h : Inv J s q g) (hp : p < J.numPes) : Follows J (exec s p) q g (execEvents s p) := by
  unfold exec execEvents
  cases hpc : s.pc p with
  | idle => exact .stay h
  | held => exact .stay h
  | setInit => exact .stay (h.zero .setSwap (by rw [hpc]; rfl) (Or.inl rfl))
  | testInit => exact .stay (h.zero .testCswap (by rw [hpc]; rfl) (Or.inr rfl))
  | setSwap =>
    have hnq : p ∉ q := fun hm => by have := (h.mem p).1 hm; rw [hpc] at this; exact absurd this (by decide)
    by_cases hl : s.last = 0
    · obtain rfl := h.last_zero.1 hl
      have hg : g = false := by
        cases g with
        | false => rfl
        | true => exact absurd rfl (h.granted rfl)
      subst hg
      simp only [hl, ne_eq, not_true_eq_false, if_false]
      exact ⟨[p], true, by simp [FifoLock.accepts, FifoLock.step], h.enqueue_first hp (Or.inl hpc)⟩
    · obtain ⟨y, hy⟩ : ∃ y, q.getLast? = some y := by
        cases hq : q.getLast? with
        | none => exact absurd (h.last_zero.2 (by simpa using hq)) hl
        | some y => exact ⟨y, rfl⟩
      have hly : s.last = me y := by rw [h.last]; simp [lastWord, hy]
      simp only [hl, ne_eq, not_false_eq_true, if_true]
      refine ⟨q ++ [p], g, by simp [FifoLock.accepts, FifoLock.step, hnq], ?_⟩
      rw [hly]
      exact h.enqueue hp hpc hy
  | setLink w => exact .stay (h.link hpc)
  | setFetch =>
    by_cases hs : SIGNAL (s.data p) = 0
    · simp only [hs, ne_eq, not_true_eq_false, if_false]
      exact .stay (h.goto _ (by rw [hpc]; rfl) (by rw [hpc]; rfl) (by rw [hpc]; rfl) (by simp [hpc])
        (by simp [Pc.passing]) (by simp) (by simp))
    · obtain ⟨hhead, rfl, hi⟩ := h.grant hpc hs
      simp only [hs, ne_eq, not_false_eq_true, if_true]
      exact ⟨q, true, by simp [FifoLock.accepts, FifoLock.step, hhead], hi⟩
  | setWait d =>
    dsimp only
    split_ifs
    · exact .stay (h.goto _ (by rw [hpc]; rfl) (by rw [hpc]; rfl) (by rw [hpc]; rfl) (by simp [hpc])
        (by simp [Pc.passing]) (by simp) (by simp))
    · exact .stay h
  | testCswap =>
    dsimp only
    split_ifs with hl
    · obtain rfl := h.last_zero.1 hl
      have hg : g = false := by
        cases g with
        | false => rfl
        | true => exact absurd rfl (h.granted rfl)
      subst hg
      exact ⟨[p], true, by simp [FifoLock.accepts, FifoLock.step], h.enqueue_first hp (Or.inr hpc)⟩
    · exact .stay (h.goto _ (by rw [hpc]; rfl) (by rw [hpc]; rfl) (by rw [hpc]; rfl) (by simp [hpc])
        (by simp [Pc.passing]) (by simp) (by simp))
  | clearCswap =>
    dsimp only
    split_ifs with hl
    · obtain ⟨rfl, rfl, hi⟩ := h.release_last hp hpc hl
      exact ⟨[], false, by simp [FifoLock.accepts, FifoLock.step], hi⟩
    · refine .stay (h.goto _ (by rw [hpc]; rfl) (by rw [hpc]; rfl) (by rw [hpc]; rfl) (by simp [hpc])
        (fun _ hlast => hl ?_) (by simp) (by simp))
      rw [h.last]; simp [lastWord, hlast]
  | clearFetch =>
    have hpass := h.passing p (by rw [hpc]; rfl)
    by_cases hn : NEXT (s.data p) = 0
    · simp only [hn, ne_eq, not_true_eq_false, if_false]
      exact .stay (h.goto _ (by rw [hpc]; rfl) (by rw [hpc]; rfl) (by rw [hpc]; rfl) (by simp [hpc])
        (fun _ => hpass) (by simp) (by simp))
    · simp only [hn, ne_eq, not_false_eq_true, if_true]
      refine .stay (h.goto _ (by rw [hpc]; rfl) (by rw [hpc]; rfl) (by rw [hpc]; rfl) (by simp [hpc])
        (fun _ => hpass) ?_ (by simp))
      rintro d hd
      simp only [Pc.clearSignal.injEq] at hd
      exact hd ▸ ⟨rfl, hn⟩
  | clearWait d =>
    dsimp only
    split_ifs
    · exact .stay (h.goto _ (by rw [hpc]; rfl) (by rw [hpc]; rfl) (by rw [hpc]; rfl) (by simp [hpc])
        (fun _ => h.passing p (by rw [hpc]; rfl)) (by simp) (by simp))
    · exact .stay h
  | clearSignal d =>
    obtain ⟨hhead, rfl, hi⟩ := h.pass hpc
    exact ⟨q.tail, false, by simp [FifoLock.accepts, FifoLock.step, hhead], hi⟩

theorem step_inv (h : Inv J s q g) (o : Op) : Follows J (step J s o) q g (events J s o) := by
  cases o with
  | exec p =>
    simp only [step, events]
    split_ifs with hp
    · exact exec_inv h hp
    · exact .stay h
  | setLock p =>
    simp only [step, events]
    split_ifs with hp
    · exact .stay (h.goto _ (by rw [hp.2]; rfl) (by rw [hp.2]; rfl) (by rw [hp.2]; rfl) (by simp [hp.2])
        (by simp [Pc.passing]) (by simp) (by simp))
    · exact .stay h
  | testLock p =>
    simp only [step, events]
    split_ifs with hp
    · exact .stay (h.goto _ (by rw [hp.2]; rfl) (by rw [hp.2]; rfl) (by rw [hp.2]; rfl) (by simp [hp.2])
        (by simp [Pc.passing]) (by simp) (by simp))
    · exact .stay h
  | clearLock p =>
    simp only [step, events]
    split_ifs with hp
    · exact .stay (h.goto _ (by rw [hp.2]; rfl) (by rw [hp.2]; rfl) (by rw [hp.2]; rfl) (by simp [hp.2])
        (by simp [Pc.passing]) (by simp) (by simp))
    · exact .stay h

end

/-- **Refinement.** The history of every run is one of the first-come-first-served lock, and the words of the lock are
those of the queue it leads to. -/
theorem run_refines (J : Job) (ops : List Op) :
    Follows J (runL J ops).c [] false (runL J ops).log := by
  refine Runs.run_inv (stepL J) (fun t => Follows J t.c [] false t.log) ?_ linit ⟨[], false, rfl, inv_init J⟩ ops
  rintro t o ⟨q, g, hacc, hinv⟩
  obtain ⟨q', g', hacc', hinv'⟩ := step_inv hinv o
  refine ⟨q', g', ?_, hinv'⟩
  show FifoLock.accepts _ (t.log ++ events J t.c o) = _
  rw [FifoLock.accepts_append, hacc]
  exact hacc'

/-! ## How the holder got the lock -/

/-- every PE that owns the lock got 0 from its swap or cswap, or has its SIGNAL bit set -/
def Entitled (s : St) (r : ℕ → Bool) : Prop := ∀ x, (s.pc x).owns = true → r x = true ∨ SIGNAL (s.data x) ≠ 0

theorem Entitled.goto {s : St} {r : ℕ → Bool} {p : ℕ} {c : Pc} (h : Entitled s r)
    (hc : c.owns = true → r p = true ∨ SIGNAL (s.data p) ≠ 0) : Entitled (s.goto p c) r := by
  intro x hx
  by_cases hxp : x = p
  · subst hxp
    rw [St.goto_pc, Function.update_self] at hx
    exact hc hx
  · rw [St.goto_pc, Function.update_of_ne hxp] at hx
    exact h x hx

/-- a store that keeps or sets SIGNAL bits, or hits a PE that does not own the lock -/
theorem Entitled.store {s : St} {r : ℕ → Bool} {a : ℕ} {w : Word} (h : Entitled s r)
    (hw : (s.pc a).owns = true → SIGNAL (s.data a) ≠ 0 → SIGNAL w ≠ 0) : Entitled (s.store a w) r := by
  intro x hx
  rcases h x hx with h1 | h1
  · exact Or.inl h1
  · right
    by_cases hxa : x = a
    · subst hxa
      rw [St.store_data, Function.update_self]
      exact hw hx h1
    · rw [St.store_data, Function.update_of_ne hxa]
      exact h1

/-- the swap or cswap on `last` records its own result -/
theorem exec_entitled_swap {s : St} {r : ℕ → Bool} {p : ℕ} (h : Entitled s r) (hat : atLast s p) :
    Entitled (exec s p) (Function.update r p (decide (s.last = 0))) := by
  -- p owns nothing before the swap, and owns the lock after it only when the swap returned 0
  have hswap : ∀ (c : Pc) (w : Word), (c.owns = true → s.last = 0) →
      Entitled ((s.setLast w).goto p c) (Function.update r p (decide (s.last = 0))) := by
    intro c w hc x hx
    by_cases hxp : x = p
    · subst hxp
      rw [St.goto_pc, Function.update_self] at hx
      left; rw [Function.update_self]; simpa using hc hx
    · rw [St.goto_pc, Function.update_of_ne hxp] at hx
      rw [Function.update_of_ne hxp]
      exact h x hx
  unfold exec
  rcases hat with hpc | hpc
  · simp only [hpc]
    refine hswap _ _ ?_
    split_ifs with hl
    · exact fun hc => absurd hc (by simp [Pc.owns])
    · exact fun _ => by simpa using hl
  · simp only [hpc]
    split_ifs with hl
    · exact hswap _ _ (fun _ => hl)
    · exact hswap .idle s.last (by simp [Pc.owns])

theorem exec_entitled {s : St} {r : ℕ → Bool} {p : ℕ} (h : Entitled s r) (hat : ¬ atLast s p) :
    Entitled (exec s p) r := by
  unfold exec
  cases hpc : s.pc p with
  | setSwap => exact absurd (Or.inl hpc) hat
  | testCswap => exact absurd (Or.inr hpc) hat
  | setInit =>
    refine Entitled.goto (s := s.store p 0) (h.store ?_) (by simp [Pc.owns])
    intro ho; rw [hpc] at ho; exact absurd ho (by decide)
  | testInit =>
    refine Entitled.goto (s := s.store p 0) (h.store ?_) (by simp [Pc.owns])
    intro ho; rw [hpc] at ho; exact absurd ho (by decide)
  | setLink w =>
    exact Entitled.goto (h.store (fun _ hs => by rw [SIGNAL_mswap_next]; exact hs)) (by simp [Pc.owns])
  | setFetch =>
    dsimp only
    split_ifs with hs
    · exact h.goto (fun _ => Or.inr hs)
    · exact h.goto (by simp [Pc.owns])
  | setWait d =>
    dsimp only
    split_ifs
    · exact h.goto (by simp [Pc.owns])
    · exact h
  | clearCswap =>
    dsimp only
    split_ifs
    · exact Entitled.goto (s := s.setLast 0) h (by simp [Pc.owns])
    · exact h.goto (fun _ => h p (by rw [hpc]; rfl))
  | clearFetch => exact h.goto (fun _ => h p (by rw [hpc]; rfl))
  | clearWait d =>
    dsimp only
    split_ifs
    · exact h.goto (fun _ => h p (by rw [hpc]; rfl))
    · exact h
  | clearSignal d => exact Entitled.goto (h.store (fun _ _ => SIGNAL_mswap_signal _)) (by simp [Pc.owns])
  | idle => exact h
  | held => exact h

theorem step_entitled (J : Job) (s : St) (r : ℕ → Bool) (o : Op) (h : Entitled s r) :
    Entitled (step J s o) (returned J s r o) := by
  cases o with
  | exec p =>
    simp only [step, returned]
    by_cases hp : p < J.numPes
    · by_cases hat : atLast s p
      · simp only [hp, hat, and_self, if_true]
        exact exec_entitled_swap h hat
      · simp only [hp, hat, and_false, if_true, if_false]
        exact exec_entitled h hat
    · simp only [hp, false_and, if_false]
      exact h
  | setLock p =>
    simp only [step, returned]
    split_ifs
    · exact h.goto (by simp [Pc.owns])
    · exact h
  | testLock p =>
    simp only [step, returned]
    split_ifs
    · exact h.goto (by simp [Pc.owns])
    · exact h
  | clearLock p =>
    simp only [step, returned]
    split_ifs with hp
    · exact h.goto (fun _ => h p (by rw [hp.2]; rfl))
    · exact h

theorem run_entitled (J : Job) (ops : List Op) : Entitled (runL J ops).c (runL J ops).ret0 :=
  Runs.run_inv (stepL J) (fun t => Entitled t.c t.ret0) (fun t o h => step_entitled J t.c t.ret0 o h) linit
    (fun x hx => absurd hx (by simp [linit, init, Pc.owns])) ops

/-! ## Main results -/

/-- **Mutual exclusion.** For every number of PEs and every interleaving of the steps of `set_lock`, `test_lock` and
`clear_lock`, at most one PE holds the lock. -/
theorem mutual_exclusion (J : Job) (ops : List Op) (p q : ℕ) (hp : Holds (run J ops) p) (hq : Holds (run J ops) q) :
    p = q := by
  obtain ⟨l, g, -, hinv⟩ := run_refines J ops
  rw [runL_c] at hinv
  have h1 := (hinv.owner_head (p := p) (by rw [show (run J ops).pc p = .held from hp]; rfl)).1
  have h2 := (hinv.owner_head (p := q) (by rw [show (run J ops).pc q = .held from hq]; rfl)).1
  rw [h1] at h2
  exact Option.some.inj h2

/-- two PEs: PE 1 takes the lock, PE 0 swaps itself in behind it and waits for its SIGNAL bit -/
def contended : List Op :=
  [.setLock 1, .exec 1, .exec 1, .setLock 0, .exec 0, .exec 0, .exec 0, .exec 0]

def twoPes : Job := ⟨2, by decide, by decide⟩

theorem mutual_exclusion_of_two :
    (Holds (run twoPes contended) 1 ∧ (run twoPes contended).pc 0 = .setWait 0) ∧
      ∀ q, Holds (run twoPes contended) q → 1 = q :=
  ⟨by decide, fun q hq => mutual_exclusion _ _ 1 q (by decide) hq⟩

/-- no queued PE is lost: the words of the lock hold exactly the queue of the history -/
structure HandOff (t : LSt) : Prop where
  empty : t.c.last = 0 ↔ FifoLock.queueOf t.log = []
  youngest : ∀ p, (FifoLock.queueOf t.log).getLast? = some p → t.c.last = me p
  oldest : ∀ p, (FifoLock.queueOf t.log).head? = some p → t.ret0 p = true ∨ SIGNAL (t.c.data p) ≠ 0
  others : ∀ p ∈ (FifoLock.queueOf t.log).tail, SIGNAL (t.c.data p) = 0
  /-- a PE queued behind another is stored in the other's NEXT field, or has yet to execute the mswap that does it -/
  linked : ∀ l₁ a b l₂, FifoLock.queueOf t.log = l₁ ++ a :: b :: l₂ →
    NEXT (t.c.data a) = me b ∨ (t.c.pc b = .setLink (me a) ∧ peOf (me a) = a)
  /-- the zeroing at the start of `set_lock` and `test_lock` hits no queued PE's word -/
  zeroing : ∀ p, t.c.pc p = .setInit ∨ t.c.pc p = .testInit →
    p ∉ FifoLock.queueOf t.log ∧ ∀ a ∈ FifoLock.queueOf t.log, (exec t.c p).data a = t.c.data a
  /-- and nothing is stored in the zeroed word before the PE is queued -/
  zeroed : ∀ p, atLast t.c p → t.c.data p = 0

/-- **First-in-first-out hand-off without lost waiters.** In every run the lock is acquired exactly in the order in
which the swaps and successful cswaps on `last` took effect, and in every state the words of the lock describe the
queue of the PEs that have entered it and not yet released. -/
theorem fifo_hand_off (J : Job) (ops : List Op) :
    FifoLock.acquired (runL J ops).log <+: FifoLock.enqueued (runL J ops).log ∧ HandOff (runL J ops) := by
  obtain ⟨q, g, hacc, hinv⟩ := run_refines J ops
  have hent := run_entitled J ops
  have hq := FifoLock.accepts_queueOf _ _ hacc
  simp only at hq
  refine ⟨FifoLock.acquired_prefix _ _ hacc, ?_, ?_, ?_, ?_, ?_, ?_, hinv.fresh⟩
  · rw [hq]; exact hinv.last_zero
  · intro p hp
    rw [hq] at hp
    rw [hinv.last]; simp [lastWord, hp]
  · intro p hp
    rw [hq] at hp
    have hh := hinv.head p hp
    cases g with
    | true => exact hent p (by simpa using hh)
    | false =>
      simp only [Bool.false_eq_true, if_false] at hh
      exact Or.inr hh.2
  · rw [hq]; exact hinv.tail
  · intro l₁ a b l₂ hl
    rw [hq] at hl
    have hab : Link _ a b := List.isChain_iff_forall_rel_of_append_cons_cons.1 hinv.chain hl
    have hai := hinv.lt_int (a := a) (by simp [hl])
    rcases hab with ⟨h1, -⟩ | ⟨-, h2⟩
    · exact Or.inr ⟨h1, peOf_me (by omega)⟩
    · exact Or.inl h2
  · intro p hp
    rw [hq]
    have hnq : p ∉ q := by
      intro hm
      have := (hinv.mem p).1 hm
      rcases hp with hp | hp <;> rw [hp] at this <;> exact absurd this (by decide)
    refine ⟨hnq, fun a ha => ?_⟩
    have hap : a ≠ p := fun he => hnq (he ▸ ha)
    rcases hp with hp | hp <;> simp [exec, hp, hap]

/-- PE 1 releases the lock with PE 0 behind it: its cswap fails, it signals PE 0, and PE 0 leaves its wait -/
example : (runL twoPes (contended ++ [.clearLock 1, .exec 1, .exec 1, .exec 1, .exec 0, .exec 0])).log =
    [.enqueue 1, .acquire 1, .enqueue 0, .release 1, .acquire 0] := by decide

end SandiaShmem.Lock
