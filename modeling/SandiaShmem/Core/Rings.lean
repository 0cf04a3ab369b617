/-
Rings of nodes, each with a link to the next node and one to the node before it.

`Path` are the links from a node over others to a last one; a ring is a path from a node back to it. A node enters a ring
behind a given one, and leaves it from any place; each changes the links of the two neighbours.

- `path_append`: a path is cut at one of its nodes.
- `Path.fd_eq`, `Path.bk_eq`: what the links at the ends are.
- `Path.insert`, `Path.remove`, `Path.rotate`: rings after an insertion and a removal, and from another node on.
-/
import Mathlib.Tactic

namespace Rings

open Function

variable {α : Type*} {fd bk fd' bk' : α → α} {a b x : α} {l l₁ l₂ : List α}

/-- the links from a over the nodes of l to b -/
def Path (fd bk : α → α) : α → List α → α → Prop
  | a, [], b => fd a = b ∧ bk b = a
  | a, x :: l, b => (fd a = x ∧ bk x = a) ∧ Path fd bk x l b

/-! ## Parts of a path -/

/-- only the links of the path matter -/
theorem Path.congr (h : Path fd bk a l b) (hfd : ∀ x ∈ a :: l, fd' x = fd x) (hbk : ∀ x ∈ l ++ [b], bk' x = bk x) :
    Path fd' bk' a l b := by
  induction l generalizing a with
  | nil => exact ⟨(hfd a (by simp)).trans h.1, (hbk b (by simp)).trans h.2⟩
  | cons y l ih =>
    refine ⟨⟨(hfd a (by simp)).trans h.1.1, (hbk y (by simp)).trans h.1.2⟩, ih h.2 (fun x hx => ?_) fun x hx => ?_⟩
    · exact hfd x (List.mem_cons_of_mem _ hx)
    · exact hbk x (List.mem_cons_of_mem _ hx)

theorem path_append : Path fd bk a (l₁ ++ x :: l₂) b ↔ Path fd bk a l₁ x ∧ Path fd bk x l₂ b := by
  induction l₁ generalizing a with
  | nil => rfl
  | cons y l ih => simp only [List.cons_append, Path, ih, and_assoc]

theorem Path.fd_eq (h : Path fd bk a l b) : fd a = l.headD b := by
  cases l with
  | nil => exact h.1
  | cons y l => exact h.1.1

theorem Path.bk_eq (h : Path fd bk a l b) : bk b = l.getLastD a := by
  induction l generalizing a with
  | nil => exact h.2
  | cons y l ih => rw [ih h.2, List.getLastD_cons]

theorem getLastD_mem (a : α) (l : List α) : l.getLastD a ∈ a :: l := by
  induction l generalizing a with
  | nil => exact List.mem_cons_self
  | cons y l ih =>
    rw [List.getLastD_cons]
    exact List.mem_cons_of_mem _ (ih y)

theorem headD_mem (b : α) (l : List α) : l.headD b ∈ l ++ [b] := by
  cases l <;> simp

/-- the neighbours of a node of a path -/
theorem Path.neighbours (h : Path fd bk a (l₁ ++ x :: l₂) b) :
    bk x = l₁.getLastD a ∧ fd x = l₂.headD b ∧ fd (l₁.getLastD a) = x ∧ bk (l₂.headD b) = x := by
  obtain ⟨h₁, h₂⟩ := path_append.mp h
  refine ⟨h₁.bk_eq, h₂.fd_eq, ?_, ?_⟩
  · induction l₁ generalizing a with
    | nil => exact h₁.1
    | cons y l ih =>
      rw [List.getLastD_cons]
      exact ih h.2 h₁.2
  · cases l₂ with
    | nil => exact h₂.2
    | cons y l => exact h₂.1.2

/-! ## Rings -/

/-- a node enters a ring behind a -/
theorem Path.insert (h : Path fd bk a l a) (hnodup : (a :: l).Nodup) (hnext : fd' a = x) (hfd : fd' x = fd a)
    (hprev : bk' (fd a) = x) (hbk : bk' x = a) (hfds : ∀ z ∈ l, fd' z = fd z)
    (hbks : ∀ z ∈ a :: l, z ≠ fd a → bk' z = bk z) : Path fd' bk' a (x :: l) a := by
  refine ⟨⟨hnext, hbk⟩, ?_⟩
  cases l with
  | nil =>
    rw [h.1] at hfd hprev
    exact ⟨hfd, hprev⟩
  | cons y l =>
    obtain ⟨⟨hy, -⟩, hrest⟩ := h
    rw [hy] at hfd hprev hbks
    refine ⟨⟨hfd, hprev⟩, hrest.congr hfds fun z hz => ?_⟩
    simp only [List.nodup_cons, List.mem_cons, not_or] at hnodup
    rcases List.mem_append.mp hz with hz | hz
    · refine hbks z (by simp [hz]) ?_
      rintro rfl
      exact hnodup.2.1 hz
    · obtain rfl := List.mem_singleton.mp hz
      exact hbks z List.mem_cons_self hnodup.1.1

/-- a node leaves a path -/
theorem Path.remove_mid [DecidableEq α] (h : Path fd bk a (l₁ ++ x :: l₂) b) (hnodup : (a :: (l₁ ++ x :: l₂)).Nodup)
    (hb : b ∉ l₁ ++ x :: l₂) : Path (update fd (bk x) (fd x)) (update bk (fd x) (bk x)) a (l₁ ++ l₂) b := by
  obtain ⟨hbk, hfd, -, -⟩ := h.neighbours
  rw [hbk, hfd]
  clear hbk hfd
  induction l₁ generalizing a with
  | nil =>
    obtain ⟨-, h₂⟩ := h
    simp only [List.nil_append, List.nodup_cons, List.mem_cons, not_or] at hnodup hb
    cases l₂ with
    | nil => exact ⟨update_self .., update_self ..⟩
    | cons y l =>
      simp only [List.nodup_cons, List.mem_cons, not_or] at hnodup hb
      refine ⟨⟨update_self .., update_self ..⟩, h₂.2.congr (fun z hz => ?_) fun z hz => ?_⟩
      · refine update_of_ne ?_ ..
        rintro rfl
        rcases List.mem_cons.mp hz with hz | hz
        · exact hnodup.1.2.1 hz
        · exact hnodup.1.2.2 hz
      · refine update_of_ne ?_ ..
        rintro rfl
        rcases List.mem_append.mp hz with hz | hz
        · exact hnodup.2.2.1 hz
        · exact hb.2.1 (List.mem_singleton.mp hz).symm
  | cons c l ih =>
    obtain ⟨⟨h₁, h₂⟩, h₃⟩ := h
    rw [List.cons_append, List.nodup_cons] at hnodup
    rw [List.cons_append, List.mem_cons, not_or] at hb
    rw [List.getLastD_cons]
    refine ⟨⟨?_, ?_⟩, ih h₃ hnodup.2 hb.2⟩
    · rw [update_of_ne, h₁]
      rintro rfl
      refine hnodup.1 ?_
      have hmem := getLastD_mem c l
      simp only [List.mem_cons, List.mem_append] at hmem ⊢
      tauto
    · rw [update_of_ne, h₂]
      rintro rfl
      have hmem := headD_mem b l₂
      rcases List.mem_append.mp hmem with hmem | hmem
      · exact (List.nodup_cons.mp hnodup.2).1 (by simp only [List.mem_append, List.mem_cons]; tauto)
      · exact hb.1 (List.mem_singleton.mp hmem).symm

/-- a node leaves a ring -/
theorem Path.remove [DecidableEq α] (h : Path fd bk a l a) (hnodup : (a :: l).Nodup) (hx : x ∈ l)
    (hprev : fd' (bk x) = fd x) (hnext : bk' (fd x) = bk x)
    (hfds : ∀ z ∈ a :: l, z ≠ bk x → z ≠ x → fd' z = fd z) (hbks : ∀ z ∈ a :: l, z ≠ fd x → z ≠ x → bk' z = bk z) :
    Path fd' bk' a (l.erase x) a := by
  obtain ⟨l₁, l₂, rfl⟩ := List.append_of_mem hx
  obtain ⟨hna, hnl⟩ := List.nodup_cons.mp hnodup
  have hx₁ : x ∉ l₁ := fun hmem => (List.nodup_append.mp hnl).2.2 x hmem x List.mem_cons_self rfl
  have hpath := h.remove_mid hnodup hna
  have herase : (l₁ ++ x :: l₂).erase x = l₁ ++ l₂ := by rw [List.erase_append_right _ hx₁, List.erase_cons_head]
  have hne : ∀ z ∈ a :: (l₁ ++ l₂), z ∈ a :: (l₁ ++ x :: l₂) ∧ z ≠ x := by
    intro z hz
    rw [← herase] at hz
    rcases List.mem_cons.mp hz with rfl | hz
    · exact ⟨List.mem_cons_self, fun heq => hna (heq ▸ hx)⟩
    · rw [hnl.mem_erase_iff] at hz
      exact ⟨List.mem_cons_of_mem _ hz.2, hz.1⟩
  rw [herase]
  refine hpath.congr (fun z hz => ?_) fun z hz => ?_
  · by_cases hz' : z = bk x
    · rw [hz', update_self, hprev]
    · rw [update_of_ne hz', hfds z (hne z hz).1 hz' (hne z hz).2]
  · have hz : z ∈ a :: (l₁ ++ l₂) := by
      simp only [List.mem_append, List.mem_cons, List.not_mem_nil, or_false] at hz ⊢
      tauto
    by_cases hz' : z = fd x
    · rw [hz', update_self, hnext]
    · rw [update_of_ne hz', hbks z (hne z hz).1 hz' (hne z hz).2]

/-- the links of a node of a ring -/
theorem Path.ring_mem (h : Path fd bk a l a) (hx : x ∈ l) :
    (fd x = a ∨ fd x ∈ l) ∧ (bk x = a ∨ bk x ∈ l) ∧ bk (fd x) = x ∧ fd (bk x) = x := by
  obtain ⟨l₁, l₂, rfl⟩ := List.append_of_mem hx
  obtain ⟨hbk, hfd, h₁, h₂⟩ := h.neighbours
  refine ⟨?_, ?_, by rw [hfd, h₂], by rw [hbk, h₁]⟩
  · rw [hfd]
    rcases List.mem_append.mp (headD_mem a l₂) with hmem | hmem
    · exact .inr (List.mem_append_right _ (List.mem_cons_of_mem _ hmem))
    · exact .inl (List.mem_singleton.mp hmem)
  · rw [hbk]
    rcases List.mem_cons.mp (getLastD_mem a l₁) with hmem | hmem
    · exact .inl hmem
    · exact .inr (List.mem_append_left _ hmem)

/-- a node other than a is not alone -/
theorem Path.bk_ne (h : Path fd bk a l b) (hnodup : (a :: l).Nodup) (hx : x ∈ l) : bk x ≠ x := by
  obtain ⟨l₁, l₂, rfl⟩ := List.append_of_mem hx
  obtain ⟨hbk, -⟩ := h.neighbours
  rw [hbk]
  intro heq
  have hmem := getLastD_mem a l₁
  rw [heq] at hmem
  rw [List.nodup_cons, List.nodup_append] at hnodup
  rcases List.mem_cons.mp hmem with rfl | hmem
  · exact hnodup.1 hx
  · exact hnodup.2.2.2 x hmem x List.mem_cons_self rfl

/-- the two neighbours are one node only where the ring has two nodes -/
theorem Path.fd_eq_bk_iff (h : Path fd bk a l a) (hnodup : (a :: l).Nodup) (hx : x ∈ l) : fd x = bk x ↔ l = [x] := by
  constructor
  · intro heq
    obtain ⟨l₁, l₂, rfl⟩ := List.append_of_mem hx
    obtain ⟨hbk, hfd, -, -⟩ := h.neighbours
    rw [hbk, hfd] at heq
    rw [List.nodup_cons, List.nodup_append] at hnodup
    have h₁ := getLastD_mem a l₁
    have h₂ := headD_mem a l₂
    rw [heq] at h₂
    -- the node is in both parts, so it is a, and both are empty
    have ha : l₁.getLastD a = a := by
      rcases List.mem_cons.mp h₁ with h₁ | h₁
      · exact h₁
      · rcases List.mem_append.mp h₂ with h₂ | h₂
        · exact absurd rfl (hnodup.2.2.2 _ h₁ _ (List.mem_cons_of_mem _ h₂))
        · exact List.mem_singleton.mp h₂
    have hl₁ : l₁ = [] := by
      cases l₁ with
      | nil => rfl
      | cons c l =>
        rw [List.getLastD_cons] at ha
        exact absurd (List.mem_append_left _ (ha ▸ getLastD_mem c l)) hnodup.1
    have hl₂ : l₂ = [] := by
      cases l₂ with
      | nil => rfl
      | cons c l =>
        rw [ha] at heq
        exact absurd (by rw [← heq]; simp) hnodup.1
    rw [hl₁, hl₂, List.nil_append]
  · rintro rfl
    obtain ⟨⟨-, h₁⟩, h₂, -⟩ := h
    rw [h₁, h₂]

/-- the ring from the last node on -/
theorem Path.rotate (h : Path fd bk a (l ++ [x]) a) : Path fd bk x (a :: l) x := by
  obtain ⟨h₁, h₂⟩ := path_append.mp h
  exact ⟨h₂, h₁⟩

end Rings
