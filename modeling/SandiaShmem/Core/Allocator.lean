/-
What an allocator of memory is for, in its own terms: blocks that do not overlap and keep their bytes. An allocator may
refuse, it chooses the addresses, and what a new block holds is its own affair.

- `Step`: what a call may do. `Legal`: what the client must see to.
- `Steps.good`: after any calls the blocks are apart and inside the heap.
- `Steps.untouched`: a byte is what was last written there.
- `play_refines`: an implementation that refines `Step` never stops, whatever a legal client does.
-/
import Mathlib.Tactic

namespace Allocator

/-! ## Calls -/

/-- what a client may ask for -/
inductive Call where
  | alloc (n align : ℕ) (clear : Bool)
  | resize (p n : ℕ)
  | free (p : ℕ)
  | store (x b : ℕ)
deriving DecidableEq, Repr

/-- the blocks with their sizes, and the bytes -/
structure Store where
  live : ℕ → Option ℕ
  byte : ℕ → ℕ

def Store.empty : Store := ⟨fun _ => none, fun _ => 0⟩

/-- n bytes at p and k bytes at q, from different addresses on -/
def Apart (p n q k : ℕ) : Prop := p ≠ q ∧ (p + n ≤ q ∨ q + k ≤ p)

/-- a place between lo and hi for a block -/
structure New (lo hi : ℕ) (live : ℕ → Option ℕ) (p n : ℕ) : Prop where
  pos : 0 < p
  lo_le : lo ≤ p
  le_hi : p + n ≤ hi
  apart : ∀ q k, live q = some k → Apart p n q k

/-- the blocks that are still there hold what they have held -/
def Kept (S S' : Store) (ps : Set ℕ) : Prop :=
  ∀ q k, q ∉ ps → S.live q = some k → ∀ i < k, S'.byte (q + i) = S.byte (q + i)

/-- what a call may return and do; 0 means that it is refused, or that there is nothing to return -/
inductive Step (lo hi : ℕ) : Store → Call → ℕ → Store → Prop where
  | refused {S : Store} {n a : ℕ} {c : Bool} : Step lo hi S (.alloc n a c) 0 S
  | alloc {S S' : Store} {n a p : ℕ} {c : Bool} (new : New lo hi S.live p n) (aligned : a ∣ p)
      (live : S'.live = Function.update S.live p (some n)) (clear : c = true → ∀ i < n, S'.byte (p + i) = 0)
      (kept : Kept S S' ∅) : Step lo hi S (.alloc n a c) p S'
  | stuck {S : Store} {p n : ℕ} : Step lo hi S (.resize p n) 0 S
  | resize {S S' : Store} {p m q n : ℕ} (old : S.live p = some m) (new : New lo hi (Function.update S.live p none) q n)
      (live : S'.live = Function.update (Function.update S.live p none) q (some n))
      (copied : ∀ i < n, i < m → S'.byte (q + i) = S.byte (p + i)) (kept : Kept S S' {p}) :
      Step lo hi S (.resize p n) q S'
  | nothing {S : Store} : Step lo hi S (.free 0) 0 S
  | free {S S' : Store} {p m : ℕ} (old : S.live p = some m) (live : S'.live = Function.update S.live p none)
      (kept : Kept S S' {p}) : Step lo hi S (.free p) 0 S'
  | store {S S' : Store} {x b : ℕ} (live : S'.live = S.live) (self : S'.byte x = b)
      (other : ∀ y, y ≠ x → S'.byte y = S.byte y) : Step lo hi S (.store x b) 0 S'

/-- what the client must see to -/
def Legal (S : Store) : Call → Prop
  | .alloc .. => True
  | .resize p _ => S.live p ≠ none
  | .free p => p = 0 ∨ S.live p ≠ none
  | .store x b => b < 256 ∧ ∃ p n, S.live p = some n ∧ p ≤ x ∧ x < p + n

/-- calls with what they return -/
inductive Steps (lo hi : ℕ) (S : Store) : List (Call × ℕ) → Store → Prop where
  | nil : Steps lo hi S [] S
  | snoc {S₁ S' : Store} {tr : List (Call × ℕ)} {c : Call} {r : ℕ} (h : Steps lo hi S tr S₁)
      (step : Step lo hi S₁ c r S') : Steps lo hi S (tr ++ [(c, r)]) S'

/-! ## The blocks -/

/-- the blocks are in the heap, and no two of them overlap -/
structure Good (lo hi : ℕ) (S : Store) : Prop where
  inside : ∀ p n, S.live p = some n → 0 < p ∧ lo ≤ p ∧ p + n ≤ hi
  apart : ∀ p n q k, S.live p = some n → S.live q = some k → p ≠ q → Apart p n q k

section
variable {lo hi p q n k x b r : ℕ} {S S' : Store} {c : Call} {tr : List (Call × ℕ)} {live : ℕ → Option ℕ}

theorem Apart.symm (h : Apart p n q k) : Apart q k p n := ⟨h.1.symm, h.2.symm⟩

theorem good_empty : Good lo hi .empty := ⟨nofun, nofun⟩

/-- some blocks fewer -/
theorem Good.mono {byte byte' : ℕ → ℕ} {live' : ℕ → Option ℕ} (h : Good lo hi ⟨live, byte⟩)
    (hsub : ∀ p n, live' p = some n → live p = some n) : Good lo hi ⟨live', byte'⟩ :=
  ⟨fun p n hp => h.inside p n (hsub p n hp), fun p n q k hp hq => h.apart p n q k (hsub p n hp) (hsub q k hq)⟩

theorem update_none_sub (h : Function.update live p none q = some k) : q ≠ p ∧ live q = some k := by
  by_cases hq : q = p
  · rw [hq, Function.update_self] at h
    cases h
  · exact ⟨hq, by rwa [Function.update_of_ne hq] at h⟩

/-- one block more -/
theorem Good.add {byte byte' : ℕ → ℕ} (h : Good lo hi ⟨live, byte⟩) (hnew : New lo hi live p n) :
    Good lo hi ⟨Function.update live p (some n), byte'⟩ := by
  have hcases : ∀ q k, Function.update live p (some n) q = some k → (q = p ∧ k = n) ∨ (q ≠ p ∧ live q = some k) := by
    intro q k hq
    by_cases hqp : q = p
    · rw [hqp, Function.update_self, Option.some.injEq] at hq
      exact .inl ⟨hqp, hq.symm⟩
    · exact .inr ⟨hqp, by rwa [Function.update_of_ne hqp] at hq⟩
  refine ⟨fun q k hq => ?_, fun q k r j hq hr hne => ?_⟩
  · rcases hcases q k hq with ⟨rfl, rfl⟩ | ⟨-, hq'⟩
    · exact ⟨hnew.pos, hnew.lo_le, hnew.le_hi⟩
    · exact h.inside q k hq'
  · rcases hcases q k hq with ⟨rfl, rfl⟩ | ⟨-, hq'⟩ <;> rcases hcases r j hr with ⟨rfl, rfl⟩ | ⟨-, hr'⟩
    · exact absurd rfl hne
    · exact hnew.apart r j hr'
    · exact (hnew.apart q k hq').symm
    · exact h.apart q k r j hq' hr' hne

theorem Step.good (h : Step lo hi S c r S') (hS : Good lo hi S) : Good lo hi S' := by
  cases h with
  | refused | stuck | nothing => exact hS
  | alloc new _ live =>
    obtain ⟨live', byte'⟩ := S'
    subst live
    exact Good.add hS new
  | resize _ new live =>
    obtain ⟨live', byte'⟩ := S'
    subst live
    apply Good.add _ new
    · exact S.byte
    · exact Good.mono hS fun _ _ hq => (update_none_sub hq).2
  | free _ live =>
    obtain ⟨live', byte'⟩ := S'
    subst live
    exact Good.mono hS fun _ _ hq => (update_none_sub hq).2
  | store live =>
    obtain ⟨live', byte'⟩ := S'
    subst live
    exact Good.mono hS fun _ _ hq => hq

/-- **Blocks do not overlap.** After any calls. -/
theorem Steps.good (h : Steps lo hi S tr S') (hS : Good lo hi S) : Good lo hi S' := by
  induction h with
  | nil => exact hS
  | snoc _ step ih => exact step.good ih

/-! ## The bytes -/

/-- the call changes the block p, or the byte x -/
def Touches (p x : ℕ) : Call → Prop
  | .alloc .. => False
  | .resize q _ | .free q => q = p
  | .store y _ => y = x

theorem Step.untouched {i : ℕ} (h : Step lo hi S c r S') (hp : S.live p = some n) (hi : i < n)
    (hnot : ¬ Touches p (p + i) c) : S'.live p = some n ∧ S'.byte (p + i) = S.byte (p + i) := by
  cases h with
  | refused | stuck | nothing => exact ⟨hp, rfl⟩
  | alloc new _ live _ kept =>
    refine ⟨?_, kept p n (Set.notMem_empty p) hp i hi⟩
    rw [live, Function.update_of_ne (new.apart p n hp).1.symm, hp]
  | resize _ new live _ kept =>
    have hne : p ≠ _ := fun heq => hnot heq.symm
    have hp' := (Function.update_of_ne hne none S.live).trans hp
    refine ⟨?_, kept p n hne hp i hi⟩
    rw [live, Function.update_of_ne (new.apart p n hp').1.symm, hp']
  | free _ live kept =>
    have hne : p ≠ _ := fun heq => hnot heq.symm
    refine ⟨?_, kept p n hne hp i hi⟩
    rw [live, Function.update_of_ne hne, hp]
  | store live _ other => exact ⟨live ▸ hp, other _ fun heq => hnot heq.symm⟩

theorem Step.live_alloc {a : ℕ} {b : Bool} (h : Step lo hi S (.alloc n a b) r S') (hr : r ≠ 0) :
    S'.live = Function.update S.live r (some n) := by
  cases h with
  | refused => exact absurd rfl hr
  | alloc _ _ live => exact live

theorem Step.live_resize (h : Step lo hi S (.resize p n) r S') (hr : r ≠ 0) : S'.live r = some n := by
  cases h with
  | stuck => exact absurd rfl hr
  | resize _ _ live => rw [live, Function.update_self]

theorem Step.live_free (h : Step lo hi S (.free p) r S') (hp : p ≠ 0) :
    r = 0 ∧ S'.live = Function.update S.live p none := by
  cases h with
  | nothing => exact absurd rfl hp
  | free _ live => exact ⟨rfl, live⟩

theorem Step.live_store (h : Step lo hi S (.store x b) r S') : S'.live = S.live := by
  cases h with
  | store live => exact live

/-- the last of the calls -/
theorem Steps.snoc_iff (tr : List (Call × ℕ)) : Steps lo hi S (tr ++ [(c, r)]) S' ↔ ∃ S₁, Steps lo hi S tr S₁ ∧ Step lo hi S₁ c r S' := by
  refine ⟨fun h => ?_, fun ⟨S₁, h, hstep⟩ => .snoc h hstep⟩
  generalize htr : tr ++ [(c, r)] = tr' at h
  cases h with
  | nil => exact absurd htr (by simp)
  | snoc h step =>
    obtain ⟨rfl, heq⟩ := List.append_inj' htr rfl
    simp only [List.cons.injEq, Prod.mk.injEq, and_true] at heq
    obtain ⟨rfl, rfl⟩ := heq
    exact ⟨_, h, step⟩

/-- **Blocks keep their bytes.** Until a call is about the block, or about that byte. -/
theorem Steps.untouched {i : ℕ} (h : Steps lo hi S tr S') (hp : S.live p = some n) (hi : i < n)
    (hnot : ∀ c ∈ tr, ¬ Touches p (p + i) c.1) : S'.live p = some n ∧ S'.byte (p + i) = S.byte (p + i) := by
  induction h with
  | nil => exact ⟨hp, rfl⟩
  | snoc _ step ih =>
    obtain ⟨hlive, hbyte⟩ := ih fun c hc => hnot c (List.mem_append_left _ hc)
    obtain ⟨hlive', hbyte'⟩ := step.untouched hlive hi (hnot _ (List.mem_append_right _ (List.mem_singleton_self _)))
    exact ⟨hlive', hbyte'.trans hbyte⟩

end

/-! ## Implementations -/

section
variable {σ ι : Type*}

/-- n rounds of a client that sees what its calls return -/
def play (exec : σ → ι → Option (ℕ × σ)) (client : List (ι × ℕ) → ι) (s₀ : σ) : ℕ → Option (List (ι × ℕ) × σ)
  | 0 => some ([], s₀)
  | n + 1 => (play exec client s₀ n).bind fun (tr, s) =>
    (exec s (client tr)).map fun (r, s') => (tr ++ [(client tr, r)], s')

/-- the calls of a history -/
def calls (call : ι → Call) (tr : List (ι × ℕ)) : List (Call × ℕ) := tr.map fun c => (call c.1, c.2)

variable {lo hi : ℕ} {exec : σ → ι → Option (ℕ × σ)} {call : ι → Call} {ok : ι → Prop} {R : Store → σ → Prop}
  {client : List (ι × ℕ) → ι} {s₀ : σ}

/-- **An implementation does not stop.** If each legal call is one of the steps then so is every history of a client whose
calls are all legal. -/
theorem play_refines {S₀ : Store} (hstep : ∀ S s op, R S s → Legal S (call op) → ok op →
      ∃ r s' S', exec s op = some (r, s') ∧ Step lo hi S (call op) r S' ∧ R S' s')
    (h0 : R S₀ s₀)
    (hclient : ∀ tr S, Steps lo hi S₀ (calls call tr) S → Legal S (call (client tr)) ∧ ok (client tr)) (n : ℕ) :
    ∃ tr s S, play exec client s₀ n = some (tr, s) ∧ tr.length = n ∧ Steps lo hi S₀ (calls call tr) S ∧ R S s ∧
      ∀ c ∈ tr, ∃ tr', c.1 = client tr' := by
  induction n with
  | zero => exact ⟨[], s₀, S₀, rfl, rfl, .nil, h0, nofun⟩
  | succ n ih =>
    obtain ⟨tr, s, S, hplay, hlen, hsteps, hR, hmem⟩ := ih
    obtain ⟨hlegal, hok⟩ := hclient tr S hsteps
    obtain ⟨r, s', S', hexec, hS, hR'⟩ := hstep S s (client tr) hR hlegal hok
    refine ⟨tr ++ [(client tr, r)], s', S', ?_, ?_, ?_, hR', fun c hc => ?_⟩
    · simp [play, hplay, hexec]
    · simp [hlen]
    · rw [calls, List.map_append]
      exact .snoc hsteps hS
    · rcases List.mem_append.mp hc with hc | hc
      · exact hmem c hc
      · exact ⟨tr, by rw [List.mem_singleton.mp hc]⟩

end

end Allocator
