/-
A free list threaded through its items.

Items are numbered in the order in which they are created. A free item holds the link to the next one; `alloc` takes the
item at the head and creates two more when there is none, `free` puts an item back at the head. Nothing in the list says
which items are in use, so freeing an item twice destroys it.

- `FreeList.Chain`: the items that a head and the links reach.
- `FreeList.Tracks`: the items in use are those of a given set, and the others form the list.
- `FreeList.Tracks.alloc`, `FreeList.Tracks.free`: an allocated item was not in use, and an item in use can be freed.
-/
import Mathlib.Tactic
import Mathlib.Data.Set.Basic

/-- the head, the links, and how many items have been created and are allocated -/
structure FreeList where
  head : Option ℕ
  next : ℕ → Option ℕ
  created : ℕ
  nalloc : ℤ

namespace FreeList

/-- the items of l follow each other from the head h to the end -/
def Chain (next : ℕ → Option ℕ) : Option ℕ → List ℕ → Prop
  | h, [] => h = none
  | h, x :: l => h = some x ∧ Chain next (next x) l

/-- only the links of the items of the chain matter -/
theorem Chain.congr {next next' : ℕ → Option ℕ} {h : Option ℕ} {l : List ℕ} (hc : Chain next h l)
    (heq : ∀ x ∈ l, next' x = next x) : Chain next' h l := by
  induction l generalizing h with
  | nil => exact hc
  | cons y l ih =>
    refine ⟨hc.1, ?_⟩
    rw [heq y List.mem_cons_self]
    exact ih hc.2 fun x hx => heq x (List.mem_cons_of_mem y hx)

/-- a link of an item outside the chain does not matter -/
theorem Chain.update {next : ℕ → Option ℕ} {h : Option ℕ} {l : List ℕ} {x : ℕ} (hc : Chain next h l) (hx : x ∉ l)
    (n : Option ℕ) : Chain (Function.update next x n) h l :=
  hc.congr fun _ hy => Function.update_of_ne (ne_of_mem_of_not_mem hy hx) n next

/-- the head of a chain of more than no items -/
theorem Chain.head_mem {next : ℕ → Option ℕ} {h : Option ℕ} {l : List ℕ} (hc : Chain next h l) {x : ℕ}
    (hx : h = some x) : x ∈ l := by
  cases l with
  | nil => exact absurd (hx.symm.trans hc) (by simp)
  | cons y l => exact Option.some.inj (hc.1.symm.trans hx) ▸ List.mem_cons_self

/-- two new items, in front of the list -/
def more (fl : FreeList) : FreeList :=
  { fl with
    head := some fl.created
    next := Function.update (Function.update fl.next fl.created (some (fl.created + 1))) (fl.created + 1) fl.head
    created := fl.created + 2 }

def init : FreeList := more ⟨none, fun _ => none, 0, 0⟩

/-- take the item at the head -/
def take (fl : FreeList) : ℕ × FreeList :=
  match fl.head with
  | some item => (item, { fl with head := fl.next item, nalloc := fl.nalloc + 1 })
  | none => (0, fl)

def alloc (fl : FreeList) : ℕ × FreeList := if fl.head = none then fl.more.take else fl.take

def free (fl : FreeList) (item : ℕ) : FreeList :=
  { fl with head := some item, next := Function.update fl.next item fl.head, nalloc := fl.nalloc - 1 }

/-- the items in use are those of A -/
def Tracks (fl : FreeList) (A : Set ℕ) : Prop :=
  ∃ l, Chain fl.next fl.head l ∧ l.Nodup ∧ (∀ x, x ∈ l ↔ x < fl.created ∧ x ∉ A) ∧ ∀ x ∈ A, x < fl.created

variable {fl : FreeList} {A : Set ℕ}

theorem tracks_init : init.Tracks ∅ := by
  refine ⟨[0, 1], ⟨rfl, rfl, rfl⟩, by decide, fun x => ?_, fun x hx => absurd hx (Set.notMem_empty x)⟩
  simp only [List.mem_cons, List.not_mem_nil, or_false, Set.mem_empty_iff_false, not_false_eq_true, and_true, init, more]
  omega

/-- an empty list gets two items -/
theorem Tracks.more (h : fl.Tracks A) (hnil : fl.head = none) : fl.more.Tracks A := by
  obtain ⟨l, hc, -, hmem, hlt⟩ := h
  have hl : l = [] := by
    cases l with
    | nil => rfl
    | cons x l => exact absurd (hnil.symm.trans hc.1) (by simp)
  subst hl
  refine ⟨[fl.created, fl.created + 1], ⟨rfl, ?_, ?_⟩, by simp, fun x => ?_, fun x hx => ?_⟩
  · simp [FreeList.more]
  · simpa [FreeList.more, Chain] using hnil
  · have hall : x < fl.created → x ∈ A := fun hx => by_contra fun hA => List.not_mem_nil ((hmem x).mpr ⟨hx, hA⟩)
    have hused : x ∈ A → x < fl.created := hlt x
    simp only [List.mem_cons, List.not_mem_nil, or_false, FreeList.more]
    constructor
    · intro hx
      exact ⟨by omega, fun hA => by have := hused hA; omega⟩
    · intro hx
      have hge : ¬ x < fl.created := fun hx' => hx.2 (hall hx')
      omega
  · have := hlt x hx
    simp only [FreeList.more]
    omega

theorem Tracks.take (h : fl.Tracks A) (hne : fl.head ≠ none) :
    fl.take.1 ∉ A ∧ fl.take.2.Tracks (insert fl.take.1 A) := by
  obtain ⟨l, hc, hnd, hmem, hlt⟩ := h
  cases l with
  | nil => exact absurd hc hne
  | cons x l =>
    have htake : fl.take = (x, { fl with head := fl.next x, nalloc := fl.nalloc + 1 }) := by
      simp only [FreeList.take, hc.1]
    rw [htake]
    obtain ⟨hxl, hnd'⟩ := List.nodup_cons.mp hnd
    have hx := (hmem x).mp List.mem_cons_self
    refine ⟨hx.2, l, hc.2, hnd', fun y => ?_, ?_⟩
    · have hy := hmem y
      rw [List.mem_cons] at hy
      simp only [Set.mem_insert_iff, not_or]
      constructor
      · intro hyl
        exact ⟨(hy.mp (.inr hyl)).1, fun heq => hxl (heq ▸ hyl), (hy.mp (.inr hyl)).2⟩
      · rintro ⟨hlt', hyx, hyA⟩
        exact (hy.mpr ⟨hlt', hyA⟩).resolve_left hyx
    · rintro y (rfl | hyA)
      · exact hx.1
      · exact hlt y hyA

/-- **An allocated item was not in use.** -/
theorem Tracks.alloc (h : fl.Tracks A) : fl.alloc.1 ∉ A ∧ fl.alloc.2.Tracks (insert fl.alloc.1 A) := by
  unfold FreeList.alloc
  split
  · rename_i hnil
    exact (h.more hnil).take (by simp [FreeList.more])
  · rename_i hne
    exact h.take hne

/-- **An item in use can be freed.** -/
theorem Tracks.free (h : fl.Tracks A) {x : ℕ} (hx : x ∈ A) : (fl.free x).Tracks (A \ {x}) := by
  obtain ⟨l, hc, hnd, hmem, hlt⟩ := h
  have hxl : x ∉ l := fun hxl => ((hmem x).mp hxl).2 hx
  refine ⟨x :: l, ⟨rfl, ?_⟩, List.nodup_cons.mpr ⟨hxl, hnd⟩, fun y => ?_, fun y hy => hlt y hy.1⟩
  · simp only [FreeList.free, Function.update_self]
    exact hc.update hxl fl.head
  · by_cases hyx : y = x
    · subst hyx
      simp [FreeList.free, hlt y hx]
    · simp [FreeList.free, hyx, hmem y]

end FreeList
