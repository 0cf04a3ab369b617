/-
Additions to one word, each a load and a later store.

Between its load and its store an addition keeps out those that are atomic with respect to it. An addition that is not
kept out can store in between, and then one of the two is lost.

- `Adds`: the additions, which of them exclude each other and which of them are complete before others begin.
- `Safe`: two additions that may overlap and do not exclude each other both add 0.
- `run_inv_safe`: when they are safe, a word that an addition has loaded does not change before it stores.
- `run_serial`: additions that are done one after the other.
- `sum_iff`: all interleavings end with the sum of all additions exactly if they are safe.
-/
import Mathlib.Algebra.BigOperators.Group.Finset.Piecewise
import Mathlib.Data.Finset.Range
import Mathlib.Tactic.Abel
import SandiaShmem.Core.Runs

namespace LostUpdate

open Runs Finset

/-! ## Additions -/

/-- the additions 0, .., n - 1 to a word -/
structure Adds (α : Type*) where
  n : ℕ
  add : ℕ → α
  /-- one of the two does not load while the other has loaded and not stored -/
  excl : ℕ → ℕ → Bool
  /-- the first is complete before the second begins -/
  before : ℕ → ℕ → Bool
  excl_comm : ∀ i j, excl i j = excl j i
  before_lt : ∀ i j, before i j = true → i < j
  before_trans : ∀ i j k, before i j = true → before j k = true → before i k = true

inductive Pc (α : Type*) where
  | pending
  | loaded (v : α)
  | done

def Pc.isLoaded {α : Type*} : Pc α → Bool
  | .loaded _ => true
  | _ => false

def Pc.isDone {α : Type*} : Pc α → Bool
  | .done => true
  | _ => false

@[ext]
structure St (α : Type*) where
  word : α
  pc : ℕ → Pc α

def init {α : Type*} (w : α) : St α := ⟨w, fun _ => .pending⟩

/-- addition i moves, with w in the word -/
def St.put {α : Type*} (s : St α) (i : ℕ) (w : α) (p : Pc α) : St α := ⟨w, Function.update s.pc i p⟩

@[simp] theorem St.put_word {α : Type*} (s : St α) (i : ℕ) (w : α) (p : Pc α) : (s.put i w p).word = w := rfl

@[simp] theorem St.put_self {α : Type*} (s : St α) (i : ℕ) (w : α) (p : Pc α) : (s.put i w p).pc i = p :=
  Function.update_self ..

theorem St.put_of_ne {α : Type*} (s : St α) {i j : ℕ} (w : α) (p : Pc α) (h : j ≠ i) : (s.put i w p).pc j = s.pc j :=
  Function.update_of_ne h ..

theorem St.put_put {α : Type*} (s : St α) (i : ℕ) (w w' : α) (p p' : Pc α) : (s.put i w p).put i w' p' = s.put i w' p' :=
  St.ext rfl (Function.update_idem ..)

/-- the state in which the additions of D are complete and the others have not begun -/
def settled {α : Type*} (D : Finset ℕ) (w : α) : St α := ⟨w, fun i => if i ∈ D then .done else .pending⟩

theorem settled_pending {α : Type*} {D : Finset ℕ} {i : ℕ} (h : i ∉ D) (w : α) : (settled D w).pc i = .pending := if_neg h

theorem settled_done {α : Type*} {D : Finset ℕ} {i : ℕ} (h : i ∈ D) (w : α) : ((settled D w).pc i).isDone = true := by
  have hpc : (settled D w).pc i = .done := if_pos h
  rw [hpc]
  rfl

theorem settled_not_loaded {α : Type*} (D : Finset ℕ) (w : α) (i : ℕ) : ((settled D w).pc i).isLoaded = false := by
  by_cases h : i ∈ D
  · have hpc : (settled D w).pc i = .done := if_pos h
    rw [hpc]
    rfl
  · rw [settled_pending h]
    rfl

theorem settled_put {α : Type*} {D : Finset ℕ} (w w' : α) (i : ℕ) : (settled D w).put i w' .done = settled (insert i D) w' := by
  refine St.ext rfl (funext fun j => ?_)
  by_cases h : j = i
  · subst h
    rw [St.put_self]
    exact (if_pos (mem_insert_self j D)).symm
  · rw [St.put_of_ne _ _ _ h]
    exact if_congr (by rw [mem_insert, or_iff_right h]) rfl rfl

section
variable {α : Type*} [AddCommGroup α] (A : Adds α)

/-- addition i can load: those before it are complete, and none that it excludes is between its load and its store -/
def Adds.CanLoad (s : St α) (i : ℕ) : Prop :=
  i < A.n ∧ (∀ j < A.n, A.before j i = true → (s.pc j).isDone = true) ∧
    ∀ j < A.n, A.excl i j = true → (s.pc j).isLoaded = false

instance (s : St α) (i : ℕ) : Decidable (A.CanLoad s i) := inferInstanceAs (Decidable (_ ∧ _ ∧ _))

/-- addition i makes its next move: the load, then the store -/
def Adds.step (s : St α) (i : ℕ) : St α :=
  match s.pc i with
  | .pending => if A.CanLoad s i then s.put i s.word (.loaded s.word) else s
  | .loaded v => s.put i (v + A.add i) .done
  | .done => s

/-- all additions have stored -/
def Adds.Complete (s : St α) : Prop := ∀ i < A.n, (s.pc i).isDone = true

instance (s : St α) : Decidable (A.Complete s) := inferInstanceAs (Decidable (∀ _ < _, _))

/-- two additions that may overlap -/
def Adds.Overlap (i j : ℕ) : Prop := i ≠ j ∧ A.before i j = false ∧ A.before j i = false

/-- additions that may overlap and do not exclude each other add nothing -/
def Adds.Safe : Prop :=
  ∀ i < A.n, ∀ j < A.n, A.Overlap i j → A.excl i j = false → A.add i = 0 ∧ A.add j = 0

/-- what a complete addition has contributed -/
def Adds.credit (s : St α) (i : ℕ) : α := if (s.pc i).isDone then A.add i else 0

/-! ## The moves -/

inductive Move (A : Adds α) (s : St α) (i : ℕ) : St α → Prop
  | load (hpc : s.pc i = .pending) (h : A.CanLoad s i) :
      Move A s i (s.put i s.word (.loaded s.word))
  | store {v : α} (hpc : s.pc i = .loaded v) : Move A s i (s.put i (v + A.add i) .done)

theorem step_cases (s : St α) (i : ℕ) : A.step s i = s ∨ Move A s i (A.step s i) := by
  unfold Adds.step
  cases hpc : s.pc i with
  | pending =>
    by_cases h : A.CanLoad s i
    · simp only [if_pos h]
      exact .inr (.load hpc h)
    · exact .inl (if_neg h)
  | loaded v => exact .inr (.store hpc)
  | done => exact .inl rfl

theorem credit_load {s : St α} {i : ℕ} (hpc : s.pc i = .pending) :
    A.credit (s.put i s.word (.loaded s.word)) = A.credit s := by
  funext j
  unfold Adds.credit
  by_cases h : j = i
  · subst h
    rw [St.put_self, hpc]
    rfl
  · rw [St.put_of_ne _ _ _ h]

theorem credit_store (s : St α) (w : α) (i : ℕ) :
    A.credit (s.put i w .done) = Function.update (A.credit s) i (A.add i) := by
  funext j
  by_cases h : j = i
  · subst h
    simp [Adds.credit, Pc.isDone]
  · simp [Adds.credit, Function.update_of_ne h, St.put_of_ne _ _ _ h]

/-- a store adds its share to the sum of the contributions -/
theorem sum_credit_store {s : St α} {w v : α} {i : ℕ} (hi : i < A.n) (hpc : s.pc i = .loaded v) :
    ∑ j ∈ range A.n, A.credit (s.put i w .done) j = A.add i + ∑ j ∈ range A.n, A.credit s j := by
  have hmem : i ∈ range A.n := mem_range.mpr hi
  have hzero : A.credit s i = 0 := by
    unfold Adds.credit
    rw [hpc]
    rfl
  calc ∑ j ∈ range A.n, A.credit (s.put i w .done) j
      = ∑ j ∈ range A.n, Function.update (A.credit s) i (A.add i) j := by rw [credit_store]
    _ = A.add i + ∑ j ∈ range A.n \ {i}, A.credit s j := sum_update_of_mem hmem ..
    _ = A.add i + (A.credit s i + ∑ j ∈ range A.n \ {i}, A.credit s j) := by rw [hzero, zero_add]
    _ = A.add i + ∑ j ∈ range A.n, A.credit s j := by rw [← sum_eq_add_sum_sdiff_singleton_of_mem hmem]

/-! ## Safe additions -/

structure Inv (w : α) (s : St α) : Prop where
  lt : ∀ i v, s.pc i = .loaded v → i < A.n
  /-- what an addition has loaded is still in the word -/
  read : ∀ i v, s.pc i = .loaded v → v = s.word
  preds : ∀ i, s.pc i ≠ .pending → ∀ j < A.n, A.before j i = true → (s.pc j).isDone = true
  apart : ∀ i j, i ≠ j → (s.pc i).isLoaded = true → (s.pc j).isLoaded = true → A.excl i j = false
  word : s.word = w + ∑ i ∈ range A.n, A.credit s i

theorem init_inv (w : α) : Inv A w (init w) where
  lt := nofun
  read := nofun
  preds _ h := absurd rfl h
  apart _ _ _ h := Bool.noConfusion h
  word := by
    have h : ∀ i ∈ range A.n, A.credit (init w) i = 0 := fun _ _ => rfl
    rw [sum_eq_zero h, add_zero]
    rfl

/-- two additions that have both loaded may overlap -/
theorem Inv.overlap {w : α} {s : St α} (h : Inv A w s) {i j : ℕ} {v v' : α} (hne : i ≠ j) (hi : s.pc i = .loaded v)
    (hj : s.pc j = .loaded v') : A.Overlap i j := by
  have hclear : ∀ x y v v', s.pc x = .loaded v → s.pc y = .loaded v' → A.before x y = false := by
    intro x y v v' hx hy
    by_contra hb
    have hdone := h.preds y (by rw [hy]; nofun) x (h.lt x v hx) (Bool.eq_true_of_not_eq_false hb)
    rw [hx] at hdone
    exact Bool.noConfusion hdone
  exact ⟨hne, hclear i j v v' hi hj, hclear j i v' v hj hi⟩

/-- of two safe additions that have both loaded, none changes the word -/
theorem Inv.add_eq_zero {w : α} {s : St α} (h : Inv A w s) (hsafe : A.Safe) {i j : ℕ} {v v' : α} (hne : i ≠ j)
    (hi : s.pc i = .loaded v) (hj : s.pc j = .loaded v') : A.add i = 0 := by
  have hexcl : A.excl i j = false := h.apart i j hne (by rw [hi]; rfl) (by rw [hj]; rfl)
  exact (hsafe i (h.lt i v hi) j (h.lt j v' hj) (h.overlap A hne hi hj) hexcl).1

theorem Inv.load {w : α} {s : St α} (h : Inv A w s) {i : ℕ} (hpc : s.pc i = .pending) (hload : A.CanLoad s i) :
    Inv A w (s.put i s.word (.loaded s.word)) := by
  obtain ⟨hi, hbefore, hexcl⟩ := hload
  have hdone : ∀ j, (s.pc j).isDone = true → ((s.put i s.word (.loaded s.word)).pc j).isDone = true := by
    intro j hj
    have hne : j ≠ i := by
      rintro rfl
      rw [hpc] at hj
      exact Bool.noConfusion hj
    rwa [St.put_of_ne _ _ _ hne]
  refine ⟨fun j v hj => ?_, fun j v hj => ?_, fun j hj k hk hkj => ?_, fun j k hjk hj hk => ?_, ?_⟩
  · by_cases hji : j = i
    · exact hji ▸ hi
    · rw [St.put_of_ne _ _ _ hji] at hj
      exact h.lt j v hj
  · by_cases hji : j = i
    · subst hji
      rw [St.put_self] at hj
      exact (Pc.loaded.inj hj).symm
    · rw [St.put_of_ne _ _ _ hji] at hj
      exact h.read j v hj
  · apply hdone
    by_cases hji : j = i
    · exact hbefore k hk (hji ▸ hkj)
    · rw [St.put_of_ne _ _ _ hji] at hj
      exact h.preds j hj k hk hkj
  · -- the one that loads now excludes none of those that have loaded
    have hnew : ∀ x, x ≠ i → ((s.put i s.word (.loaded s.word)).pc x).isLoaded = true → A.excl i x = false := by
      intro x hx hl
      rw [St.put_of_ne _ _ _ hx] at hl
      by_contra he
      cases hp : s.pc x with
      | pending => rw [hp] at hl; exact Bool.noConfusion hl
      | done => rw [hp] at hl; exact Bool.noConfusion hl
      | loaded v =>
        have hfree := hexcl x (h.lt x v hp) (Bool.eq_true_of_not_eq_false he)
        rw [hp] at hfree
        exact Bool.noConfusion hfree
    by_cases hji : j = i
    · subst hji
      exact hnew k (Ne.symm hjk) hk
    · by_cases hki : k = i
      · subst hki
        rw [A.excl_comm]
        exact hnew j hji hj
      · rw [St.put_of_ne _ _ _ hji] at hj
        rw [St.put_of_ne _ _ _ hki] at hk
        exact h.apart j k hjk hj hk
  · rw [credit_load A hpc]
    exact h.word

theorem Inv.store {w : α} {s : St α} (h : Inv A w s) (hsafe : A.Safe) {i : ℕ} {v : α} (hpc : s.pc i = .loaded v) :
    Inv A w (s.put i (v + A.add i) .done) := by
  have hkeep : ∀ j, ((s.put i (v + A.add i) .done).pc j).isLoaded = true → j ≠ i ∧ (s.pc j).isLoaded = true := by
    intro j hj
    by_cases hji : j = i
    · subst hji
      rw [St.put_self] at hj
      exact Bool.noConfusion hj
    · rw [St.put_of_ne _ _ _ hji] at hj
      exact ⟨hji, hj⟩
  have hold : ∀ j v', (s.put i (v + A.add i) .done).pc j = .loaded v' → j ≠ i ∧ s.pc j = .loaded v' := by
    intro j v' hj
    have hji := (hkeep j (by rw [hj]; rfl)).1
    rw [St.put_of_ne _ _ _ hji] at hj
    exact ⟨hji, hj⟩
  refine ⟨fun j v' hj => h.lt j v' (hold j v' hj).2, fun j v' hj => ?_, fun j hj k hk hkj => ?_,
    fun j k hjk hj hk => h.apart j k hjk (hkeep j hj).2 (hkeep k hk).2, ?_⟩
  · -- some other addition has loaded: this one adds 0
    obtain ⟨hji, hl⟩ := hold j v' hj
    calc v' = s.word := h.read j v' hl
      _ = v := (h.read i v hpc).symm
      _ = v + A.add i := by rw [h.add_eq_zero A hsafe (Ne.symm hji) hpc hl, add_zero]
  · by_cases hki : k = i
    · subst hki
      rw [St.put_self]
      rfl
    · rw [St.put_of_ne _ _ _ hki]
      apply h.preds j _ k hk hkj
      by_cases hji : j = i
      · rw [hji, hpc]
        nofun
      · rwa [St.put_of_ne _ _ _ hji] at hj
  · calc v + A.add i = A.add i + s.word := by rw [h.read i v hpc, add_comm]
      _ = w + (A.add i + ∑ j ∈ range A.n, A.credit s j) := by rw [h.word, add_left_comm]
      _ = w + ∑ j ∈ range A.n, A.credit (s.put i (v + A.add i) .done) j := by
        rw [sum_credit_store A (h.lt i v hpc) hpc]

theorem step_inv (hsafe : A.Safe) (w : α) (s : St α) (i : ℕ) (h : Inv A w s) : Inv A w (A.step s i) := by
  rcases step_cases A s i with heq | hmove
  · rwa [heq]
  · generalize A.step s i = s' at hmove ⊢
    cases hmove with
    | load hpc hload => exact h.load A hpc hload
    | store hpc => exact h.store A hsafe hpc

/-- when all have stored, safe additions have all been counted -/
theorem word_of_safe (hsafe : A.Safe) (w : α) (sched : List ℕ) (hc : A.Complete (run A.step (init w) sched)) :
    (run A.step (init w) sched).word = w + ∑ i ∈ range A.n, A.add i := by
  have h := run_inv A.step (Inv A w) (step_inv A hsafe w) _ (init_inv A w) sched
  rw [h.word]
  congr 1
  exact sum_congr rfl fun i hi => if_pos (hc i (mem_range.mp hi))

/-! ## Additions one after the other -/

/-- the additions before i are in D -/
def Adds.Ready (D : Finset ℕ) (i : ℕ) : Prop := i < A.n ∧ ∀ j < A.n, A.before j i = true → j ∈ D

omit [AddCommGroup α] in
theorem canLoad_settled {D : Finset ℕ} {i : ℕ} (h : A.Ready D i) (w : α) : A.CanLoad (settled D w) i :=
  ⟨h.1, fun j hj hji => settled_done (h.2 j hj hji) w, fun j _ _ => settled_not_loaded D w j⟩

theorem step_load {s : St α} {i : ℕ} (hpc : s.pc i = .pending) (h : A.CanLoad s i) :
    A.step s i = s.put i s.word (.loaded s.word) := by
  unfold Adds.step
  rw [hpc]
  exact if_pos h

theorem step_store {s : St α} {i : ℕ} {v : α} (hpc : s.pc i = .loaded v) :
    A.step s i = s.put i (v + A.add i) .done := by
  unfold Adds.step
  rw [hpc]

/-- an addition whose load and store are not interrupted -/
theorem run_one {D : Finset ℕ} {i : ℕ} (h : A.Ready D i) (hi : i ∉ D) (w : α) :
    run A.step (settled D w) [i, i] = settled (insert i D) (w + A.add i) := by
  rw [run_cons, run_cons, run_nil, step_load A (settled_pending hi w) (canLoad_settled A h w),
    step_store A (St.put_self ..), St.put_put, settled_put]
  rfl

/-- the additions below m that p selects -/
def chosen (p : ℕ → Prop) [DecidablePred p] (m : ℕ) : Finset ℕ := (range m).filter p

/-- their schedule, one after the other -/
def serial (p : ℕ → Prop) [DecidablePred p] : ℕ → List ℕ
  | 0 => []
  | m + 1 => serial p m ++ if p m then [m, m] else []

theorem chosen_succ (p : ℕ → Prop) [DecidablePred p] (m : ℕ) :
    chosen p (m + 1) = if p m then insert m (chosen p m) else chosen p m := by
  unfold chosen
  rw [range_add_one, filter_insert]

theorem not_mem_chosen (p : ℕ → Prop) [DecidablePred p] (m : ℕ) : m ∉ chosen p m := by
  intro h
  exact absurd (mem_range.mp (mem_filter.mp h).1) (lt_irrefl m)

/-- **Additions done one after the other** are all counted. -/
theorem run_serial (p : ℕ → Prop) [DecidablePred p] (D : Finset ℕ) (hD : ∀ i, p i → i ∉ D)
    (hp : ∀ i < A.n, p i → ∀ j < A.n, A.before j i = true → j ∈ D ∨ p j) (w : α) (m : ℕ) (hm : m ≤ A.n) :
    run A.step (settled D w) (serial p m) = settled (D ∪ chosen p m) (w + ∑ i ∈ chosen p m, A.add i) := by
  induction m with
  | zero =>
    have hempty : chosen p 0 = ∅ := rfl
    rw [hempty, union_empty, sum_empty, add_zero]
    rfl
  | succ m ih =>
    rw [serial, run_append, ih (Nat.le_of_succ_le hm), chosen_succ]
    by_cases h : p m
    · rw [if_pos h, if_pos h]
      have hready : A.Ready (D ∪ chosen p m) m := by
        refine ⟨hm, fun j hj hjm => ?_⟩
        rw [mem_union]
        rcases hp m hm h j hj hjm with hjD | hpj
        · exact .inl hjD
        · exact .inr (mem_filter.mpr ⟨mem_range.mpr (A.before_lt j m hjm), hpj⟩)
      have hnot : m ∉ D ∪ chosen p m := by
        rw [mem_union, not_or]
        exact ⟨hD m h, not_mem_chosen p m⟩
      rw [run_one A hready hnot, union_insert, sum_insert (not_mem_chosen p m), add_assoc, add_comm (A.add m)]
    · rw [if_neg h, if_neg h, run_nil]

/-! ## A lost addition -/

/-- y loads, x is done as a whole, y stores -/
theorem run_overlap {D : Finset ℕ} {x y : ℕ} (hx : A.Ready D x) (hy : A.Ready D y) (hxD : x ∉ D) (hyD : y ∉ D)
    (hne : x ≠ y) (hexcl : A.excl x y = false) (w : α) :
    run A.step (settled D w) [y, x, x, y] = settled (insert y (insert x D)) (w + A.add y) := by
  set s1 := (settled D w).put y w (.loaded w) with hs1
  have h1 : A.step (settled D w) y = s1 := step_load A (settled_pending hyD w) (canLoad_settled A hy w)
  have hcan : A.CanLoad s1 x := by
    refine ⟨hx.1, fun j hj hjx => ?_, fun j hj hxj => ?_⟩
    · have hjy : j ≠ y := by
        rintro rfl
        exact hyD (hx.2 j hj hjx)
      rw [hs1, St.put_of_ne _ _ _ hjy]
      exact settled_done (hx.2 j hj hjx) w
    · have hjy : j ≠ y := by
        rintro rfl
        rw [hexcl] at hxj
        exact Bool.noConfusion hxj
      rw [hs1, St.put_of_ne _ _ _ hjy]
      exact settled_not_loaded D w j
  have hpx : s1.pc x = .pending := by
    rw [hs1, St.put_of_ne _ _ _ hne]
    exact settled_pending hxD w
  have h2 : A.step s1 x = s1.put x w (.loaded w) := step_load A hpx hcan
  have h3 : A.step (s1.put x w (.loaded w)) x = s1.put x (w + A.add x) .done := by
    rw [step_store A (St.put_self ..), St.put_put]
  have hpy : (s1.put x (w + A.add x) .done).pc y = .loaded w := by
    rw [St.put_of_ne _ _ _ (Ne.symm hne), hs1, St.put_self]
  rw [run_cons, run_cons, run_cons, run_cons, run_nil, h1, h2, h3, step_store A hpy]
  refine St.ext rfl (funext fun j => ?_)
  by_cases hjy : j = y
  · subst hjy
    rw [St.put_self]
    exact (if_pos (mem_insert_self j _)).symm
  · rw [St.put_of_ne _ _ _ hjy]
    by_cases hjx : j = x
    · subst hjx
      rw [St.put_self]
      exact (if_pos (mem_insert_of_mem (mem_insert_self j D))).symm
    · rw [St.put_of_ne _ _ _ hjx, hs1, St.put_of_ne _ _ _ hjy]
      exact if_congr (by rw [mem_insert, mem_insert, or_iff_right hjy, or_iff_right hjx]) rfl rfl

omit [AddCommGroup α] in
theorem before_self (i : ℕ) : A.before i i = false := by
  by_contra h
  exact lt_irrefl i (A.before_lt i i (Bool.eq_true_of_not_eq_false h))

/-- the additions that are complete before x or y begins -/
def Adds.Earlier (x y i : ℕ) : Prop := A.before i x = true ∨ A.before i y = true

instance (x y : ℕ) : DecidablePred (A.Earlier x y) := fun _ => inferInstanceAs (Decidable (_ ∨ _))

omit [AddCommGroup α] in
/-- two additions that may overlap are not among them -/
theorem not_earlier {x y : ℕ} (hov : A.Overlap x y) : ¬ A.Earlier x y x ∧ ¬ A.Earlier x y y := by
  obtain ⟨-, hxy, hyx⟩ := hov
  simp only [Adds.Earlier, before_self, hxy, hyx, Bool.false_eq_true, or_self, not_false_eq_true, and_self]

omit [AddCommGroup α] in
theorem mem_chosen {p : ℕ → Prop} [DecidablePred p] {m i : ℕ} : i ∈ chosen p m ↔ i < m ∧ p i := by
  rw [chosen, mem_filter, mem_range]

/-- the earlier ones done one after the other -/
theorem run_earlier (x y : ℕ) (w : α) : run A.step (init w) (serial (A.Earlier x y) A.n) =
    settled (chosen (A.Earlier x y) A.n) (w + ∑ i ∈ chosen (A.Earlier x y) A.n, A.add i) := by
  have hclosed : ∀ i < A.n, A.Earlier x y i → ∀ j < A.n, A.before j i = true →
      j ∈ (∅ : Finset ℕ) ∨ A.Earlier x y j := by
    intro i _ hi j _ hji
    rcases hi with h | h
    · exact .inr (.inl (A.before_trans j i x hji h))
    · exact .inr (.inr (A.before_trans j i y hji h))
  have h := run_serial A (A.Earlier x y) ∅ (fun i _ => notMem_empty i) hclosed w A.n le_rfl
  rwa [empty_union] at h

omit [AddCommGroup α] in
/-- some additions and the rest are all additions -/
theorem union_chosen {Q : Finset ℕ} {n : ℕ} (hQ : ∀ i ∈ Q, i < n) : Q ∪ chosen (· ∉ Q) n = range n := by
  ext i
  rw [mem_union, mem_chosen, mem_range]
  constructor
  · rintro (h | ⟨h, -⟩)
    · exact hQ i h
    · exact h
  · intro h
    by_cases hi : i ∈ Q
    · exact .inl hi
    · exact .inr ⟨h, hi⟩

theorem sum_union_chosen {Q : Finset ℕ} {n : ℕ} (hQ : ∀ i ∈ Q, i < n) (f : ℕ → α) :
    ∑ i ∈ range n, f i = ∑ i ∈ Q, f i + ∑ i ∈ chosen (· ∉ Q) n, f i := by
  rw [← union_chosen hQ]
  exact sum_union (disjoint_left.mpr fun i hi h => (mem_chosen.mp h).2 hi)

/-- **A lost addition.** Of two additions that may overlap and do not exclude each other, one that adds something can be
lost. -/
theorem exists_lost {x y : ℕ} (hx : x < A.n) (hy : y < A.n) (hov : A.Overlap x y) (hexcl : A.excl x y = false)
    (hadd : A.add x ≠ 0) (w : α) :
    ∃ sched, A.Complete (run A.step (init w) sched) ∧
      (run A.step (init w) sched).word ≠ w + ∑ i ∈ range A.n, A.add i := by
  -- first what must be complete before one of the two, then the two, then the rest
  set P := chosen (A.Earlier x y) A.n with hP
  set Q := insert y (insert x P) with hQ
  have hxP : x ∉ P := fun h => (not_earlier A hov).1 (mem_chosen.mp h).2
  have hyP : y ∉ P := fun h => (not_earlier A hov).2 (mem_chosen.mp h).2
  have hyx : y ∉ insert x P := by
    rw [mem_insert, not_or]
    exact ⟨Ne.symm hov.1, hyP⟩
  have hQlt : ∀ i ∈ Q, i < A.n := by
    intro i hi
    rcases mem_insert.mp hi with rfl | hi
    · exact hy
    · rcases mem_insert.mp hi with rfl | hi
      · exact hx
      · exact (mem_chosen.mp hi).1
  have hreadyx : A.Ready P x := ⟨hx, fun j hj hjx => mem_chosen.mpr ⟨hj, .inl hjx⟩⟩
  have hreadyy : A.Ready P y := ⟨hy, fun j hj hjy => mem_chosen.mpr ⟨hj, .inr hjy⟩⟩
  have h1 := run_earlier A x y w
  have h2 := run_overlap A hreadyx hreadyy hxP hyP hov.1 hexcl (w + ∑ i ∈ P, A.add i)
  have h3 := run_serial A (· ∉ Q) Q (fun i hi => hi) (fun _ _ _ j _ _ => em (j ∈ Q)) (w + ∑ i ∈ P, A.add i + A.add y)
    A.n le_rfl
  refine ⟨serial (A.Earlier x y) A.n ++ ([y, x, x, y] ++ serial (· ∉ Q) A.n), ?_, ?_⟩
  · intro i hi
    rw [run_append, run_append, h1, h2, h3, union_chosen hQlt]
    exact settled_done (mem_range.mpr hi) _
  · rw [run_append, run_append, h1, h2, h3, sum_union_chosen hQlt, hQ, sum_insert hyx, sum_insert hxP, ← hQ]
    intro heq
    apply hadd
    calc A.add x = (w + (A.add y + (A.add x + ∑ i ∈ P, A.add i) + ∑ i ∈ chosen (· ∉ Q) A.n, A.add i)) -
          (w + ∑ i ∈ P, A.add i + A.add y + ∑ i ∈ chosen (· ∉ Q) A.n, A.add i) := by abel
      _ = 0 := sub_eq_zero.mpr heq.symm

/-- **When no addition is lost.** All interleavings end with the sum of all additions exactly if any two that may overlap
exclude each other or add nothing. -/
theorem sum_iff (w : α) :
    (∀ sched, A.Complete (run A.step (init w) sched) →
      (run A.step (init w) sched).word = w + ∑ i ∈ range A.n, A.add i) ↔ A.Safe := by
  constructor
  · intro h i hi j hj hov hexcl
    have hboth : ∀ x y, x < A.n → y < A.n → A.Overlap x y → A.excl x y = false → A.add x = 0 := by
      intro x y hx hy hov hexcl
      by_contra hadd
      obtain ⟨sched, hc, hw⟩ := exists_lost A hx hy hov hexcl hadd w
      exact hw (h sched hc)
    exact ⟨hboth i j hi hj hov hexcl,
      hboth j i hj hi ⟨Ne.symm hov.1, hov.2.2, hov.2.1⟩ (A.excl_comm i j ▸ hexcl)⟩
  · exact fun hsafe sched hc => word_of_safe A hsafe w sched hc

end

end LostUpdate
