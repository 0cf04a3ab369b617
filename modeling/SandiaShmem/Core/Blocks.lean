/-
Blocks that lie one behind the other: a list of sizes with a tag for each, from a first address on.

- `total`: where the next block would start, counted from the first.
- `At`: a block with its address, size and tag.
- `at_append`, `At.split`: blocks of the parts of a list, and the list around a block.
- `At.disjoint`, `At.unique`: different blocks do not overlap.
-/
import Mathlib.Tactic

namespace Blocks
variable {τ : Type*}

/-- the sizes together -/
def total : List (ℕ × τ) → ℕ
  | [] => 0
  | b :: bs => b.1 + total bs

/-- with the first block at a, there is a block of size n with tag u at p -/
def At (a : ℕ) : List (ℕ × τ) → ℕ → ℕ → τ → Prop
  | [], _, _, _ => False
  | b :: bs, p, n, u => (p = a ∧ n = b.1 ∧ u = b.2) ∨ At (a + b.1) bs p n u

@[simp] theorem total_nil : total ([] : List (ℕ × τ)) = 0 := rfl

@[simp] theorem total_cons (b : ℕ × τ) (bs : List (ℕ × τ)) : total (b :: bs) = b.1 + total bs := rfl

@[simp] theorem total_append (xs ys : List (ℕ × τ)) : total (xs ++ ys) = total xs + total ys := by
  induction xs with
  | nil => simp
  | cons b xs ih => simp [ih, Nat.add_assoc]

theorem total_dvd {d : ℕ} {bs : List (ℕ × τ)} (h : ∀ b ∈ bs, d ∣ b.1) : d ∣ total bs := by
  induction bs with
  | nil => simp
  | cons b bs ih =>
    exact dvd_add (h b List.mem_cons_self) (ih fun c hc => h c (List.mem_cons_of_mem _ hc))

@[simp] theorem at_nil (a p n : ℕ) (u : τ) : ¬ At a [] p n u := id

@[simp] theorem at_cons (a : ℕ) (b : ℕ × τ) (bs : List (ℕ × τ)) (p n : ℕ) (u : τ) :
    At a (b :: bs) p n u ↔ (p = a ∧ n = b.1 ∧ u = b.2) ∨ At (a + b.1) bs p n u := Iff.rfl

theorem at_append (a : ℕ) (xs ys : List (ℕ × τ)) (p n : ℕ) (u : τ) :
    At a (xs ++ ys) p n u ↔ At a xs p n u ∨ At (a + total xs) ys p n u := by
  induction xs generalizing a with
  | nil => simp
  | cons b xs ih => simp only [List.cons_append, at_cons, ih, total_cons, Nat.add_assoc, or_assoc]

variable {a : ℕ} {bs : List (ℕ × τ)} {p n q m : ℕ} {u v : τ}

theorem At.mem (h : At a bs p n u) : (n, u) ∈ bs := by
  induction bs generalizing a with
  | nil => exact h.elim
  | cons b bs ih =>
    rcases h with ⟨-, rfl, rfl⟩ | h
    · exact List.mem_cons_self
    · exact List.mem_cons_of_mem _ (ih h)

theorem At.bounds (h : At a bs p n u) : a ≤ p ∧ p + n ≤ a + total bs := by
  induction bs generalizing a with
  | nil => exact h.elim
  | cons b bs ih =>
    rcases h with ⟨rfl, rfl, -⟩ | h
    · rw [total_cons]
      omega
    · have := ih h
      rw [total_cons]
      omega

/-- the blocks before and behind a block -/
theorem At.split (h : At a bs p n u) : ∃ pre post, bs = pre ++ (n, u) :: post ∧ p = a + total pre := by
  induction bs generalizing a with
  | nil => exact h.elim
  | cons b bs ih =>
    rcases h with ⟨rfl, rfl, rfl⟩ | h
    · exact ⟨[], bs, rfl, rfl⟩
    · obtain ⟨pre, post, rfl, rfl⟩ := ih h
      exact ⟨b :: pre, post, rfl, by rw [total_cons, Nat.add_assoc]⟩

theorem At.of_split {pre post : List (ℕ × τ)} (h : bs = pre ++ (n, u) :: post) : At a bs (a + total pre) n u := by
  rw [h, at_append]
  exact .inr (.inl ⟨rfl, rfl, rfl⟩)

theorem At.dvd {d : ℕ} (h : At a bs p n u) (ha : d ∣ a) (hbs : ∀ b ∈ bs, d ∣ b.1) : d ∣ p := by
  obtain ⟨pre, post, rfl, rfl⟩ := h.split
  exact dvd_add ha (total_dvd fun b hb => hbs b (List.mem_append_left _ hb))

/-- two blocks are the same or do not overlap -/
theorem At.disjoint (hpos : ∀ b ∈ bs, 0 < b.1) (h : At a bs p n u) (h' : At a bs q m v) :
    (p = q ∧ n = m ∧ u = v) ∨ p + n ≤ q ∨ q + m ≤ p := by
  induction bs generalizing a with
  | nil => exact h.elim
  | cons b bs ih =>
    rcases h with ⟨rfl, rfl, rfl⟩ | h <;> rcases h' with ⟨rfl, rfl, rfl⟩ | h'
    · exact .inl ⟨rfl, rfl, rfl⟩
    · exact .inr (.inl h'.bounds.1)
    · exact .inr (.inr h.bounds.1)
    · exact ih (fun c hc => hpos c (List.mem_cons_of_mem _ hc)) h h'

theorem At.unique (hpos : ∀ b ∈ bs, 0 < b.1) (h : At a bs p n u) (h' : At a bs p m v) : n = m ∧ u = v := by
  have h1 := hpos _ h.mem
  have h2 := hpos _ h'.mem
  rcases h.disjoint hpos h' with ⟨-, hn, hu⟩ | hlt | hlt
  · exact ⟨hn, hu⟩
  · dsimp only at h1
    omega
  · dsimp only at h2
    omega

end Blocks
