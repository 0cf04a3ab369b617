/-
Puts from buffers that nobody writes.

Each PE puts buffers of its own to places of its choice, and nobody puts to a place of such a buffer. Then it does not
matter when a buffer is read: a put writes what the buffer held at the start. Several puts may go to the same place; which
of them it holds is the last to arrive.

- `Sends`: a put of the program, with the value it writes.
- `Scatters`: the programs this is about.
- `Settled`: what the memory is while the messages arrive; `settled_keeps` keeps it.
-/
import SandiaShmem.Core.Fill

namespace OneSided

open Machine

namespace Machine
variable {α : Type*} (M : Machine α) (m0 : ℕ → Loc → α)

/-- element j of what PE u puts at position t goes to place l of PE v, with the value a -/
inductive Sends (u t j v : ℕ) : Loc → α → Prop
  | put (dst : ℕ) (src : Loc) (len : ℕ) (hp : M.prog u t = some (.putNb dst src len v)) (hj : j < len) :
    Sends u t j v (.sym (dst + j)) (m0 u (src.elem j))

/-- the programs only put, and never to a buffer that is put -/
structure Scatters : Prop where
  puts : ∀ u t ins, M.prog u t = some ins → ins.buffered = true → ∃ dst src len pe, ins = .putNb dst src len pe
  buffer : ∀ u t dst src len pe, M.prog u t = some (.putNb dst src len pe) → ∀ k < len, ∀ u' t' j a,
    ¬ M.Sends m0 u' t' j u (src.elem k) a

/-- a place holds what it held at the start, or what has arrived there -/
structure Settled (s : St α) : Prop where
  mem : ∀ v l, s.mem v l = m0 v l ∨ ∃ u t j, M.Sends m0 u t j v l (s.mem v l)
  cap : ∀ u t j v l a b, M.Sends m0 u t j v l a → s.cap u t j = some b → b = a
  /-- where something has arrived there is what was sent there -/
  arrived : ∀ u t j v l a, M.Sends m0 u t j v l a → s.done u t j = true → ∃ u' t' j', M.Sends m0 u' t' j' v l (s.mem v l)

variable {M m0} {s : St α}

theorem settled_init (c0 : ℕ → ℕ → ℤ) : M.Settled m0 (init c0 m0) :=
  ⟨fun _ _ => .inl rfl, fun _ _ _ _ _ _ _ _ h => absurd h (by simp [init]),
    fun _ _ _ _ _ _ _ h => absurd h Bool.noConfusion⟩

/-- instructions leave the memory alone -/
theorem Scatters.effect_mem (h : M.Scatters m0) {r : ℕ} {ins : Instr} (hp : M.prog r (s.pc r) = some ins) :
    (M.effect s r ins).mem = s.mem := by
  cases hb : ins.buffered with
  | true =>
    obtain ⟨dst, src, len, pe, rfl⟩ := h.puts _ _ _ hp hb
    rfl
  | false =>
    cases ins with
    | memcpy => exact absurd hb Bool.noConfusion
    | reduceLocal => exact absurd hb Bool.noConfusion
    | _ => rfl

/-- a buffer still holds what it held at the start -/
theorem Scatters.buffer_mem (h : M.Scatters m0) (hs : M.Settled m0 s) {u t dst len pe : ℕ} {src : Loc}
    (hp : M.prog u t = some (.putNb dst src len pe)) {k : ℕ} (hk : k < len) :
    s.mem u (src.elem k) = m0 u (src.elem k) := by
  rcases hs.mem u (src.elem k) with heq | ⟨u', t', j, hsend⟩
  · exact heq
  · exact absurd hsend (h.buffer u t dst src len pe hp k hk u' t' j _)

theorem Settled.capture (hs : M.Settled m0 s) (h : M.Scatters m0) {r i j : ℕ} {ins : Instr} {b : α}
    (hp : M.prog r i = some ins) (hsrc : source s r j ins = some b) : M.Settled m0 (record s r i j b) := by
  refine ⟨hs.mem, fun u t k v l a b' hsend hcap => ?_, hs.arrived⟩
  rcases (record_cap ..).mp hcap with ⟨rfl, rfl, rfl, rfl⟩ | ⟨-, hold⟩
  · cases hsend with
    | put dst src len hput hj =>
      rw [hp, Option.some.injEq] at hput
      subst hput
      have hval : s.mem u (src.elem k) = b := Option.some.inj hsrc
      rw [← hval]
      exact h.buffer_mem hs hp hj
  · exact hs.cap u t k v l a b' hsend hold

/-- what a message does to the memory -/
theorem Settled.arrive_mem (hs : M.Settled m0 s) (h : M.Scatters m0) {r i j : ℕ} {ins : Instr}
    (hp : M.prog r i = some ins) (hd : M.Deliverable s r i j) :
    ((M.arrive s r i j ins).mem = s.mem ∧ ∀ v l a, ¬ M.Sends m0 r i j v l a) ∨
      ∃ v l a, M.Sends m0 r i j v l a ∧ (M.arrive s r i j ins).mem = setLoc s.mem v l a := by
  obtain ⟨-, hj, -, hcap, -⟩ := hd
  rw [partsAt_eq _ hp] at hj
  cases hb : ins.buffered with
  | true =>
    obtain ⟨dst, src, len, pe, rfl⟩ := h.puts _ _ _ hp hb
    have hread : j < M.readsAt r i := by
      rw [readsAt_eq _ hp]
      exact hj
    obtain ⟨b, hcap⟩ := Option.isSome_iff_exists.mp (hcap hread)
    have hsend : M.Sends m0 r i j pe (.sym (dst + j)) (m0 r (src.elem j)) := .put dst src len hp hj
    have hval := hs.cap _ _ _ _ _ _ _ hsend hcap
    refine .inr ⟨pe, _, _, hsend, ?_⟩
    simp only [arrive, hcap, hval]
  | false =>
    refine .inl ⟨?_, fun v l a hsend => ?_⟩
    · cases ins with
      | putNb => exact absurd hb Bool.noConfusion
      | atomicv => exact absurd hb Bool.noConfusion
      | _ => rfl
    · cases hsend with
      | put dst src len hput =>
        rw [hp, Option.some.injEq] at hput
        rw [hput] at hb
        exact absurd hb Bool.noConfusion

theorem Settled.deliver (hs : M.Settled m0 s) (h : M.Scatters m0) {r i j : ℕ} {ins : Instr}
    (hp : M.prog r i = some ins) (hd : M.Deliverable s r i j) :
    M.Settled m0 (mark (M.arrive s r i j ins) r i j) := by
  have hcap : (mark (M.arrive s r i j ins) r i j).cap = s.cap := by rw [mark_cap, arrive_cap]
  have hdone : ∀ {u t k}, (mark (M.arrive s r i j ins) r i j).done u t k = true →
      (u = r ∧ t = i ∧ k = j) ∨ s.done u t k = true := by
    intro u t k hd'
    simpa using (mark_done ..).mp hd'
  rcases hs.arrive_mem h hp hd with ⟨hmem, hno⟩ | ⟨v', l', a', hsend', hmem⟩
  · refine ⟨fun v l => ?_, fun u t k v l a b hsend hb => ?_, fun u t k v l a hsend hd' => ?_⟩
    · rw [mark_mem, hmem]
      exact hs.mem v l
    · exact hs.cap u t k v l a b hsend (hcap ▸ hb)
    · rw [mark_mem, hmem]
      rcases hdone hd' with ⟨rfl, rfl, rfl⟩ | hold
      · exact absurd hsend (hno v l a)
      · exact hs.arrived u t k v l a hsend hold
  · have hat : ∀ v l, (mark (M.arrive s r i j ins) r i j).mem v l = if v = v' ∧ l = l' then a' else s.mem v l := by
      intro v l
      rw [mark_mem, hmem, setLoc_apply]
    refine ⟨fun v l => ?_, fun u t k v l a b hsend hb => ?_, fun u t k v l a hsend hd' => ?_⟩
    · rw [hat]
      split_ifs with hsame
      · obtain ⟨rfl, rfl⟩ := hsame
        exact .inr ⟨r, i, j, hsend'⟩
      · exact hs.mem v l
    · exact hs.cap u t k v l a b hsend (hcap ▸ hb)
    · rw [hat]
      split_ifs with hsame
      · obtain ⟨rfl, rfl⟩ := hsame
        exact ⟨r, i, j, hsend'⟩
      · rcases hdone hd' with ⟨rfl, rfl, rfl⟩ | hold
        · -- this put goes to one place only
          refine absurd ?_ hsame
          cases hsend with
          | put dst src len hp₁ =>
            cases hsend' with
            | put dst' src' len' hp₂ =>
              rw [hp₁, Option.some.injEq, Instr.putNb.injEq] at hp₂
              exact ⟨hp₂.2.2.2, by rw [hp₂.1]⟩
        · exact hs.arrived u t k v l a hsend hold

/-- every step keeps it -/
theorem settled_keeps (h : M.Scatters m0) : M.Keeps (M.Settled m0) where
  exec s r ins _ hs hp _ := by
    have hmem := h.effect_mem (s := s) hp
    refine ⟨fun v l => ?_, fun u t k v l a b hsend hb => ?_, fun u t k v l a hsend hd => ?_⟩
    · rw [advance_mem, hmem]
      exact hs.mem v l
    · rw [advance_cap, effect_cap] at hb
      exact hs.cap u t k v l a b hsend hb
    · rw [advance_done, effect_done] at hd
      rw [advance_mem, hmem]
      exact hs.arrived u t k v l a hsend hd
  capture _ _ _ _ _ _ _ hs hp _ _ _ hsrc := hs.capture h hp hsrc
  deliver _ _ _ _ _ _ hs hp hd := hs.deliver h hp hd

/-- a put that has arrived where all puts write the same -/
theorem Settled.eq_of_arrived (hs : M.Settled m0 s) {u t j v : ℕ} {l : Loc} {a : α} (hsend : M.Sends m0 u t j v l a)
    (hd : s.done u t j = true) (hsame : ∀ u' t' j' b, M.Sends m0 u' t' j' v l b → b = a) : s.mem v l = a := by
  obtain ⟨u', t', j', h⟩ := hs.arrived u t j v l a hsend hd
  exact hsame u' t' j' _ h

/-- a place that nobody puts to -/
theorem Settled.eq_of_unsent (hs : M.Settled m0 s) {v : ℕ} {l : Loc}
    (hno : ∀ u t j a, ¬ M.Sends m0 u t j v l a) : s.mem v l = m0 v l :=
  (hs.mem v l).resolve_right fun ⟨u, t, j, h⟩ => hno u t j _ h

end Machine

end OneSided
