/-
Binary tries whose nodes hold items, with a number (the key) for each item.

A node covers an interval of 2^k keys. It holds one item and a chain of further items with the same key; any key of the
interval may be at the node itself. The lower half of the interval belongs to the first child, the upper half to the
second. An item is removed by putting a leaf of the subtree in its place, which keeps the intervals.

- `Trie`, `Ordered`: tries, and that every item is where its key belongs.
- `items_remove`, `Ordered.remove`: removal takes out one item and keeps the order.
- `Ordered.leftPath_le`: a smallest key is on the path that goes to the first child wherever there is one.
-/
import Mathlib.Tactic

namespace BitTrie

inductive Trie (α : Type*) where
  | nil
  | node (t : α) (chain : List α) (child0 child1 : Trie α)
deriving DecidableEq, Repr

namespace Trie
variable {α : Type*}

def isNil : Trie α → Bool
  | nil => true
  | node .. => false

/-- all items, those of a node before those below it -/
def toList : Trie α → List α
  | nil => []
  | node t chain l r => t :: (chain ++ (l.toList ++ r.toList))

/-- the leaf that is reached by going to the second child, and to the first where there is no second, with its chain,
and the trie without it -/
def takeLeaf : Trie α → Option ((α × List α) × Trie α)
  | nil => none
  | node t chain l r =>
    match takeLeaf r with
    | some (leaf, r') => some (leaf, node t chain l r')
    | none =>
      match takeLeaf l with
      | some (leaf, l') => some (leaf, node t chain l' r)
      | none => some ((t, chain), nil)

/-- the trie without the item at its root: the last of its chain takes its place, or a leaf from below -/
def removeRoot (chain : List α) (l r : Trie α) : Trie α :=
  match chain.getLast? with
  | some R => node R chain.dropLast l r
  | none =>
    match takeLeaf r with
    | some (R, r') => node R.1 R.2 l r'
    | none =>
      match takeLeaf l with
      | some (R, l') => node R.1 R.2 l' r
      | none => nil

/-- the trie without an item -/
def remove [DecidableEq α] (x : α) : Trie α → Trie α
  | nil => nil
  | node t chain l r =>
    if x = t then removeRoot chain l r
    else if x ∈ chain then node t (chain.erase x) l r
    else node t chain (remove x l) (remove x r)

/-- the items met on the way down, going to the first child wherever there is one -/
def leftPath : Trie α → List α
  | nil => []
  | node t _ l r => t :: if l.isNil then r.leftPath else l.leftPath

/-- every item is where its key belongs: the trie covers the 2^k keys from lo on -/
def Ordered (key : α → ℕ) (lo : ℕ) : ℕ → Trie α → Prop
  | _, nil => True
  | 0, node t chain l r => key t = lo ∧ (∀ x ∈ chain, key x = key t) ∧ l = nil ∧ r = nil
  | k + 1, node t chain l r =>
    lo ≤ key t ∧ key t < lo + 2 ^ (k + 1) ∧ (∀ x ∈ chain, key x = key t) ∧ l.Ordered key lo k ∧
      r.Ordered key (lo + 2 ^ k) k

/-! ## Items -/

@[simp] theorem isNil_iff {T : Trie α} : T.isNil = true ↔ T = nil := by
  cases T <;> simp [isNil]

theorem exists_mem {T : Trie α} (h : T ≠ nil) : ∃ t, t ∈ T.toList := by
  cases T with
  | nil => exact absurd rfl h
  | node t chain l r => exact ⟨t, List.mem_cons_self⟩

theorem takeLeaf_eq_none {T : Trie α} (h : T.takeLeaf = none) : T = nil := by
  cases T with
  | nil => rfl
  | node t chain l r =>
    rw [takeLeaf] at h
    split at h
    · cases h
    · split at h <;> cases h

/-- the items in no particular order -/
def items (T : Trie α) : Multiset α := T.toList

@[simp] theorem items_nil : (nil : Trie α).items = 0 := rfl

@[simp] theorem items_node (t : α) (chain : List α) (l r : Trie α) :
    (node t chain l r).items = {t} + (chain : Multiset α) + l.items + r.items := by
  simp only [items, toList, ← Multiset.cons_coe, ← Multiset.coe_add, ← Multiset.singleton_add, add_assoc]

theorem items_takeLeaf {T T' : Trie α} {R : α × List α} (h : T.takeLeaf = some (R, T')) :
    T.items = {R.1} + (R.2 : Multiset α) + T'.items := by
  induction T generalizing T' with
  | nil => cases h
  | node t chain l r ihl ihr =>
    rw [takeLeaf] at h
    split at h
    · next R' r' hr =>
      obtain ⟨rfl, rfl⟩ := Prod.mk.inj (Option.some.inj h)
      rw [items_node, items_node, ihr hr]
      abel
    · split at h
      · next R' l' hl =>
        obtain ⟨rfl, rfl⟩ := Prod.mk.inj (Option.some.inj h)
        rw [items_node, items_node, ihl hl]
        abel
      · next _ hr _ hl =>
        obtain ⟨rfl, rfl⟩ := Prod.mk.inj (Option.some.inj h)
        rw [takeLeaf_eq_none hr, takeLeaf_eq_none hl]
        simp

theorem items_removeRoot (t : α) (chain : List α) (l r : Trie α) :
    (node t chain l r).items = {t} + (removeRoot chain l r).items := by
  rw [removeRoot]
  split
  · next R hR =>
    obtain ⟨ys, rfl⟩ := List.getLast?_eq_some_iff.mp hR
    rw [List.dropLast_concat, items_node, items_node, ← Multiset.coe_add, Multiset.coe_singleton]
    abel
  · next hchain =>
    rw [List.getLast?_eq_none_iff] at hchain
    subst hchain
    split
    · next R r' hr =>
      rw [items_node, items_node, items_takeLeaf hr, Multiset.coe_nil]
      abel
    · next hr =>
      rw [takeLeaf_eq_none hr]
      split
      · next R l' hl =>
        rw [items_node, items_node, items_takeLeaf hl, Multiset.coe_nil]
        abel
      · next hl =>
        rw [takeLeaf_eq_none hl]
        simp

section
variable [DecidableEq α]

theorem remove_of_not_mem {x : α} {T : Trie α} (h : x ∉ T.toList) : T.remove x = T := by
  induction T with
  | nil => rfl
  | node t chain l r ihl ihr =>
    simp only [toList, List.mem_cons, List.mem_append, not_or] at h
    obtain ⟨hx, hchain, hl, hr⟩ := h
    rw [remove, if_neg hx, if_neg hchain, ihl hl, ihr hr]

/-- removal takes out one item -/
theorem items_remove {x : α} {T : Trie α} (h : x ∈ T.toList) (hnodup : T.toList.Nodup) :
    T.items = {x} + (T.remove x).items := by
  induction T with
  | nil => cases h
  | node t chain l r ihl ihr =>
    rw [remove]
    by_cases hx : x = t
    · subst hx
      rw [if_pos rfl]
      exact items_removeRoot ..
    rw [if_neg hx]
    by_cases hchain : x ∈ chain
    · rw [if_pos hchain, items_node, items_node, Multiset.coe_eq_coe.mpr (List.perm_cons_erase hchain),
        ← Multiset.cons_coe, ← Multiset.singleton_add]
      abel
    rw [if_neg hchain]
    simp only [toList, List.nodup_cons, List.nodup_append, List.mem_append] at hnodup
    obtain ⟨-, -, ⟨hnl, hnr, hdisj⟩, -⟩ := hnodup
    have hlr : x ∈ l.toList ∨ x ∈ r.toList := by
      simpa [toList, hx, hchain] using h
    rcases hlr with hl | hr
    · have hr : x ∉ r.toList := fun hr => hdisj x hl x hr rfl
      rw [remove_of_not_mem hr, items_node, items_node, ihl hl hnl]
      abel
    · have hl : x ∉ l.toList := fun hl => hdisj x hl x hr rfl
      rw [remove_of_not_mem hl, items_node, items_node, ihr hr hnr]
      abel

theorem toList_remove {x : α} {T : Trie α} (h : x ∈ T.toList) (hnodup : T.toList.Nodup) :
    (x :: (T.remove x).toList).Perm T.toList := by
  rw [← Multiset.coe_eq_coe, ← Multiset.cons_coe, ← Multiset.singleton_add]
  exact (items_remove h hnodup).symm

theorem mem_remove {x y : α} {T : Trie α} (hnodup : T.toList.Nodup) :
    y ∈ (T.remove x).toList ↔ y ∈ T.toList ∧ y ≠ x := by
  by_cases h : x ∈ T.toList
  · have hperm := toList_remove h hnodup
    have hx : x ∉ (T.remove x).toList := (List.nodup_cons.mp (hperm.nodup_iff.mpr hnodup)).1
    rw [← hperm.mem_iff, List.mem_cons]
    constructor
    · exact fun hy => ⟨.inr hy, fun heq => hx (heq ▸ hy)⟩
    · rintro ⟨rfl | hy, hne⟩
      · exact absurd rfl hne
      · exact hy
  · rw [remove_of_not_mem h]
    exact ⟨fun hy => ⟨hy, fun heq => h (heq ▸ hy)⟩, fun hy => hy.1⟩

theorem nodup_remove {x : α} {T : Trie α} (hnodup : T.toList.Nodup) : (T.remove x).toList.Nodup := by
  by_cases h : x ∈ T.toList
  · exact (List.nodup_cons.mp ((toList_remove h hnodup).nodup_iff.mpr hnodup)).2
  · rwa [remove_of_not_mem h]

end

/-! ## Order -/

section
variable {key : α → ℕ} {lo k : ℕ}

@[simp] theorem ordered_nil : (nil : Trie α).Ordered key lo k := by
  cases k <;> trivial

/-- the keys are in the interval -/
theorem Ordered.bounds {T : Trie α} (h : T.Ordered key lo k) : ∀ x ∈ T.toList, lo ≤ key x ∧ key x < lo + 2 ^ k := by
  induction k generalizing T lo with
  | zero =>
    cases T with
    | nil => simp [toList]
    | node t chain l r =>
      obtain ⟨ht, hchain, rfl, rfl⟩ := h
      intro x hx
      simp only [toList, List.mem_cons, List.mem_append, List.not_mem_nil, or_false] at hx
      rcases hx with rfl | hx
      · omega
      · have := hchain x hx
        omega
  | succ k ih =>
    cases T with
    | nil => simp [toList]
    | node t chain l r =>
      obtain ⟨h1, h2, hchain, hl, hr⟩ := h
      have hpow : 2 ^ (k + 1) = 2 ^ k + 2 ^ k := by ring
      intro x hx
      simp only [toList, List.mem_cons, List.mem_append] at hx
      rcases hx with rfl | hx | hx | hx
      · exact ⟨h1, h2⟩
      · have := hchain x hx
        omega
      · have := ih hl x hx
        omega
      · have := ih hr x hx
        omega

/-- only the keys of the items matter -/
theorem Ordered.congr {key' : α → ℕ} {T : Trie α} (h : T.Ordered key lo k) (heq : ∀ x ∈ T.toList, key' x = key x) :
    T.Ordered key' lo k := by
  induction k generalizing T lo with
  | zero =>
    cases T with
    | nil => trivial
    | node t chain l r =>
      obtain ⟨ht, hchain, rfl, rfl⟩ := h
      have htt := heq t (by simp [toList])
      exact ⟨htt.trans ht, fun x hx => by rw [heq x (by simp [toList, hx]), htt, hchain x hx], rfl, rfl⟩
  | succ k ih =>
    cases T with
    | nil => trivial
    | node t chain l r =>
      obtain ⟨h1, h2, hchain, hl, hr⟩ := h
      have htt := heq t (by simp [toList])
      refine ⟨htt.symm ▸ h1, htt.symm ▸ h2, fun x hx => ?_, ih hl fun x hx => ?_, ih hr fun x hx => ?_⟩
      · rw [heq x (by simp [toList, hx]), htt, hchain x hx]
      · exact heq x (by simp [toList, hx])
      · exact heq x (by simp [toList, hx])

/-- a leaf with its chain, and what is left without it -/
theorem Ordered.takeLeaf {T T' : Trie α} {R : α × List α} (h : T.Ordered key lo k) (hR : T.takeLeaf = some (R, T')) :
    T'.Ordered key lo k ∧ lo ≤ key R.1 ∧ key R.1 < lo + 2 ^ k ∧ ∀ x ∈ R.2, key x = key R.1 := by
  induction k generalizing T T' lo with
  | zero =>
    cases T with
    | nil => cases hR
    | node t chain l r =>
      obtain ⟨ht, hchain, rfl, rfl⟩ := h
      simp only [Trie.takeLeaf, Option.some.injEq, Prod.mk.injEq] at hR
      obtain ⟨rfl, rfl⟩ := hR
      exact ⟨trivial, ht.ge, by simp [ht], hchain⟩
  | succ k ih =>
    cases T with
    | nil => cases hR
    | node t chain l r =>
      obtain ⟨h1, h2, hchain, hl, hr⟩ := h
      have hpow : 2 ^ (k + 1) = 2 ^ k + 2 ^ k := by ring
      rw [Trie.takeLeaf] at hR
      split at hR
      · next R' r' hr' =>
        obtain ⟨rfl, rfl⟩ := Prod.mk.inj (Option.some.inj hR)
        obtain ⟨ho, hlo, hhi, hc⟩ := ih hr hr'
        exact ⟨⟨h1, h2, hchain, hl, ho⟩, by omega, by omega, hc⟩
      · split at hR
        · next R' l' hl' =>
          obtain ⟨rfl, rfl⟩ := Prod.mk.inj (Option.some.inj hR)
          obtain ⟨ho, hlo, hhi, hc⟩ := ih hl hl'
          exact ⟨⟨h1, h2, hchain, ho, hr⟩, by omega, by omega, hc⟩
        · obtain ⟨rfl, rfl⟩ := Prod.mk.inj (Option.some.inj hR)
          exact ⟨ordered_nil, h1, h2, hchain⟩

theorem Ordered.removeRoot {t : α} {chain : List α} {l r : Trie α} (h : (node t chain l r).Ordered key lo k) :
    (Trie.removeRoot chain l r).Ordered key lo k := by
  rw [Trie.removeRoot]
  split
  · next R hR =>
    obtain ⟨ys, rfl⟩ := List.getLast?_eq_some_iff.mp hR
    rw [List.dropLast_concat]
    cases k with
    | zero =>
      obtain ⟨ht, hchain, rfl, rfl⟩ := h
      have hRt := hchain R (by simp)
      exact ⟨hRt.trans ht, fun x hx => (hchain x (by simp [hx])).trans hRt.symm, rfl, rfl⟩
    | succ k =>
      obtain ⟨h1, h2, hchain, hl, hr⟩ := h
      have hRt := hchain R (by simp)
      exact ⟨hRt.symm ▸ h1, hRt.symm ▸ h2, fun x hx => (hchain x (by simp [hx])).trans hRt.symm, hl, hr⟩
  · cases k with
    | zero =>
      obtain ⟨-, -, rfl, rfl⟩ := h
      exact ordered_nil
    | succ k =>
      obtain ⟨-, -, -, hl, hr⟩ := h
      have hpow : 2 ^ (k + 1) = 2 ^ k + 2 ^ k := by ring
      split
      · next R r' hR =>
        obtain ⟨ho, hlo, hhi, hc⟩ := hr.takeLeaf hR
        exact ⟨by omega, by omega, hc, hl, ho⟩
      · split
        · next R l' hR =>
          obtain ⟨ho, hlo, hhi, hc⟩ := hl.takeLeaf hR
          exact ⟨by omega, by omega, hc, ho, hr⟩
        · exact ordered_nil

theorem Ordered.remove [DecidableEq α] {T : Trie α} (h : T.Ordered key lo k) (x : α) :
    (T.remove x).Ordered key lo k := by
  induction k generalizing T lo with
  | zero =>
    cases T with
    | nil => trivial
    | node t chain l r =>
      rw [Trie.remove]
      split_ifs
      · exact h.removeRoot
      · obtain ⟨ht, hchain, rfl, rfl⟩ := h
        exact ⟨ht, fun y hy => hchain y (List.mem_of_mem_erase hy), rfl, rfl⟩
      · obtain ⟨ht, hchain, rfl, rfl⟩ := h
        exact ⟨ht, hchain, rfl, rfl⟩
  | succ k ih =>
    cases T with
    | nil => trivial
    | node t chain l r =>
      rw [Trie.remove]
      split_ifs
      · exact h.removeRoot
      · obtain ⟨h1, h2, hchain, hl, hr⟩ := h
        exact ⟨h1, h2, fun y hy => hchain y (List.mem_of_mem_erase hy), hl, hr⟩
      · obtain ⟨h1, h2, hchain, hl, hr⟩ := h
        exact ⟨h1, h2, hchain, ih hl, ih hr⟩

theorem leftPath_subset {T : Trie α} : ∀ x ∈ T.leftPath, x ∈ T.toList := by
  induction T with
  | nil => simp [leftPath]
  | node t chain l r ihl ihr =>
    intro x hx
    simp only [leftPath, List.mem_cons] at hx
    simp only [toList, List.mem_cons, List.mem_append]
    rcases hx with rfl | hx
    · exact .inl rfl
    · split at hx
      · exact .inr (.inr (.inr (ihr x hx)))
      · exact .inr (.inr (.inl (ihl x hx)))

/-- a smallest key is on the path of first children -/
theorem Ordered.leftPath_le {T : Trie α} (h : T.Ordered key lo k) {x : α} (hx : x ∈ T.toList) :
    ∃ y ∈ T.leftPath, key y ≤ key x := by
  induction k generalizing T lo x with
  | zero =>
    cases T with
    | nil => cases hx
    | node t chain l r =>
      obtain ⟨ht, -, -, -⟩ := id h
      have hb := h.bounds x hx
      exact ⟨t, by simp [leftPath], by omega⟩
  | succ k ih =>
    cases T with
    | nil => cases hx
    | node t chain l r =>
      obtain ⟨-, -, hchain, hl, hr⟩ := h
      simp only [toList, List.mem_cons, List.mem_append] at hx
      rcases hx with rfl | hx | hx | hx
      · exact ⟨x, by simp [leftPath], le_refl _⟩
      · exact ⟨t, by simp [leftPath], (hchain x hx).ge⟩
      · have hne : l.isNil = false := by
          cases l with
          | nil => cases hx
          | node => rfl
        obtain ⟨y, hy, hle⟩ := ih hl hx
        exact ⟨y, by simp [leftPath, hne, hy], hle⟩
      · cases l with
        | nil =>
          obtain ⟨y, hy, hle⟩ := ih hr hx
          exact ⟨y, by simp [leftPath, isNil, hy], hle⟩
        | node t' chain' l' r' =>
          -- everything in the first child is below the second
          have ht' := hl.bounds t' (by simp [toList])
          have hxr := hr.bounds x hx
          exact ⟨t', by simp [leftPath, isNil], by omega⟩

end

end Trie

end BitTrie
