/-
Rooted trees given by a parent function and lists of children, as a program hands them to each node.

The structure carries the proof that the two agree and that parents lead to the root, so that a value is a spanning tree
of its nodes.

- `ParentTree.down`: what holds at the root and is passed on from parent to child holds everywhere. `ParentTree.up`: the
  same from the leaves to the root.
- `ParentTree.subtree`, `subtree_eq`: the nodes under a node are the node and the subtrees of its children.
- `SpanningTree`, `ParentTree.spanningTree`: the same for nodes of any kind, as a property of what they have computed.
-/
import Mathlib.Tactic
import Mathlib.Data.Finset.Union
import Mathlib.Data.Finset.Lattice.Fold

/-- a spanning tree of `nodes`; the root is its own parent -/
structure ParentTree where
  nodes : Finset ℕ
  root : ℕ
  parent : ℕ → ℕ
  children : ℕ → List ℕ
  /-- a measure that goes down towards the root -/
  depth : ℕ → ℕ
  root_mem : root ∈ nodes
  parent_root : parent root = root
  parent_mem : ∀ v ∈ nodes, parent v ∈ nodes
  mem_children : ∀ v ∈ nodes, ∀ c, c ∈ children v ↔ c ∈ nodes ∧ c ≠ root ∧ parent c = v
  nodup : ∀ v ∈ nodes, (children v).Nodup
  depth_parent : ∀ v ∈ nodes, v ≠ root → depth (parent v) < depth v

namespace ParentTree
variable (T : ParentTree)

theorem child_mem {v c : ℕ} (hv : v ∈ T.nodes) (h : c ∈ T.children v) : c ∈ T.nodes :=
  ((T.mem_children v hv c).mp h).1

theorem child_ne_root {v c : ℕ} (hv : v ∈ T.nodes) (h : c ∈ T.children v) : c ≠ T.root :=
  ((T.mem_children v hv c).mp h).2.1

theorem parent_child {v c : ℕ} (hv : v ∈ T.nodes) (h : c ∈ T.children v) : T.parent c = v :=
  ((T.mem_children v hv c).mp h).2.2

theorem mem_children_parent {v : ℕ} (hv : v ∈ T.nodes) (h : v ≠ T.root) : v ∈ T.children (T.parent v) :=
  (T.mem_children _ (T.parent_mem v hv) v).mpr ⟨hv, h, rfl⟩

theorem parent_ne {v : ℕ} (hv : v ∈ T.nodes) (h : v ≠ T.root) : T.parent v ≠ v := by
  intro heq
  have := T.depth_parent v hv h
  rw [heq] at this
  exact lt_irrefl _ this

/-- only the root is its own parent -/
theorem parent_eq_self {v : ℕ} (hv : v ∈ T.nodes) : T.parent v = v ↔ v = T.root :=
  ⟨fun h => by_contra fun hne => T.parent_ne hv hne h, fun h => h ▸ T.parent_root⟩

/-- **Induction from the root down.** -/
theorem down {P : ℕ → Prop} (h0 : P T.root) (hs : ∀ v ∈ T.nodes, v ≠ T.root → P (T.parent v) → P v) :
    ∀ v ∈ T.nodes, P v := by
  intro v
  induction hn : T.depth v using Nat.strong_induction_on generalizing v with
  | _ n ih =>
    intro hv
    by_cases hr : v = T.root
    · exact hr ▸ h0
    · exact hs v hv hr (ih _ (hn ▸ T.depth_parent v hv hr) _ rfl (T.parent_mem v hv))

/-- parents lead to the root from everywhere -/
theorem exists_iterate_root {v : ℕ} (hv : v ∈ T.nodes) : ∃ k, T.parent^[k] v = T.root := by
  refine T.down (P := fun v => ∃ k, T.parent^[k] v = T.root) ⟨0, rfl⟩ ?_ v hv
  rintro v - - ⟨k, hk⟩
  exact ⟨k + 1, hk⟩

/-- a tree with more than one node has a child under its root -/
theorem children_root_ne_nil {v : ℕ} (hv : v ∈ T.nodes) (h : v ≠ T.root) : T.children T.root ≠ [] := by
  intro hnil
  -- otherwise nobody but the root is reached from the root
  refine h (T.down (P := fun v => v = T.root) rfl ?_ v hv)
  intro w hw hne hp
  have hmem := T.mem_children_parent hw hne
  rw [hp, hnil] at hmem
  exact absurd hmem (by simp)

/-! ## Subtrees -/

open Classical in
/-- the nodes from which parents lead to v -/
noncomputable def subtree (v : ℕ) : Finset ℕ := T.nodes.filter fun x => ∃ k, T.parent^[k] x = v

variable {T}

theorem mem_subtree {v x : ℕ} : x ∈ T.subtree v ↔ x ∈ T.nodes ∧ ∃ k, T.parent^[k] x = v := by
  classical
  exact Finset.mem_filter

theorem iterate_mem {v : ℕ} (hv : v ∈ T.nodes) (k : ℕ) : T.parent^[k] v ∈ T.nodes := by
  induction k with
  | zero => exact hv
  | succ k ih =>
    rw [Function.iterate_succ_apply']
    exact T.parent_mem _ ih

/-- parents do not lead away from the root -/
theorem depth_iterate_le {v : ℕ} (hv : v ∈ T.nodes) (k : ℕ) : T.depth (T.parent^[k] v) ≤ T.depth v := by
  induction k with
  | zero => exact le_refl _
  | succ k ih =>
    rw [Function.iterate_succ_apply']
    refine le_trans ?_ ih
    by_cases hr : T.parent^[k] v = T.root
    · rw [hr, T.parent_root]
    · exact (T.depth_parent _ (iterate_mem hv k) hr).le

theorem depth_child {v c : ℕ} (hv : v ∈ T.nodes) (hc : c ∈ T.children v) : T.depth v < T.depth c := by
  have h := T.depth_parent c (T.child_mem hv hc) (T.child_ne_root hv hc)
  rwa [T.parent_child hv hc] at h

/-- **Induction from the leaves up.** -/
theorem up {P : ℕ → Prop} (hs : ∀ v ∈ T.nodes, (∀ c ∈ T.children v, P c) → P v) : ∀ v ∈ T.nodes, P v := by
  intro v
  induction hn : T.nodes.sup T.depth - T.depth v using Nat.strong_induction_on generalizing v with
  | _ n ih =>
    intro hv
    refine hs v hv fun c hc => ih _ ?_ c rfl (T.child_mem hv hc)
    have hlt := depth_child hv hc
    have hle : T.depth c ≤ T.nodes.sup T.depth := Finset.le_sup (T.child_mem hv hc)
    omega

theorem self_mem_subtree {v : ℕ} (hv : v ∈ T.nodes) : v ∈ T.subtree v := mem_subtree.mpr ⟨hv, 0, rfl⟩

/-- a node is not under its child -/
theorem notMem_subtree_child {v c : ℕ} (hv : v ∈ T.nodes) (hc : c ∈ T.children v) : v ∉ T.subtree c := by
  intro hmem
  obtain ⟨-, k, hk⟩ := mem_subtree.mp hmem
  have hle := depth_iterate_le hv k
  rw [hk] at hle
  exact absurd (depth_child hv hc) (Nat.not_lt.mpr hle)

/-- the children of a node have nothing in common -/
theorem disjoint_subtree {v c c' : ℕ} (hv : v ∈ T.nodes) (hc : c ∈ T.children v) (hc' : c' ∈ T.children v)
    (hne : c ≠ c') : Disjoint (T.subtree c) (T.subtree c') := by
  -- from one child parents do not lead to another one
  have hnot : ∀ {c c' x k m : ℕ}, c ∈ T.children v → c' ∈ T.children v → k < m → T.parent^[k] x = c →
      T.parent^[m] x ≠ c' := by
    intro c c' x k m hc hc' hlt hk hm
    obtain ⟨n, rfl⟩ : ∃ n, m = n + 1 + k := ⟨m - k - 1, by omega⟩
    rw [Function.iterate_add_apply, hk, Function.iterate_succ_apply, T.parent_child hv hc] at hm
    have hle := depth_iterate_le hv n
    rw [hm] at hle
    exact absurd (depth_child hv hc') (Nat.not_lt.mpr hle)
  rw [Finset.disjoint_left]
  intro x hx hx'
  obtain ⟨-, k, hk⟩ := mem_subtree.mp hx
  obtain ⟨-, k', hk'⟩ := mem_subtree.mp hx'
  rcases Nat.lt_trichotomy k k' with hlt | rfl | hgt
  · exact hnot hc hc' hlt hk hk'
  · exact hne (hk.symm.trans hk')
  · exact hnot hc' hc hgt hk' hk

/-- a subtree is the node and the subtrees of its children -/
theorem subtree_eq {v : ℕ} (hv : v ∈ T.nodes) :
    T.subtree v = insert v ((T.children v).toFinset.biUnion T.subtree) := by
  ext x
  rw [Finset.mem_insert, Finset.mem_biUnion]
  constructor
  · intro hx
    obtain ⟨hmem, k, hk⟩ := mem_subtree.mp hx
    by_cases heq : x = v
    · exact .inl heq
    -- the last node before v on the way there
    · classical
      have hex : ∃ k, T.parent^[k] x = v := ⟨k, hk⟩
      obtain ⟨m, hm⟩ : ∃ m, Nat.find hex = m + 1 := by
        refine ⟨Nat.find hex - 1, ?_⟩
        have hpos : Nat.find hex ≠ 0 := fun h0 => heq (by simpa [h0] using Nat.find_spec hex)
        omega
      have hreach := Nat.find_spec hex
      rw [hm, Function.iterate_succ_apply'] at hreach
      have hne : T.parent^[m] x ≠ v := Nat.find_min hex (by omega)
      have hroot : T.parent^[m] x ≠ T.root := by
        intro hr
        rw [hr, T.parent_root] at hreach
        exact hne (hr.trans hreach)
      refine .inr ⟨T.parent^[m] x, ?_, mem_subtree.mpr ⟨hmem, m, rfl⟩⟩
      rw [List.mem_toFinset, T.mem_children v hv]
      exact ⟨iterate_mem hmem m, hroot, hreach⟩
  · rintro (rfl | ⟨c, hc, hx⟩)
    · exact self_mem_subtree hv
    · obtain ⟨hmem, k, hk⟩ := mem_subtree.mp hx
      refine mem_subtree.mpr ⟨hmem, k + 1, ?_⟩
      rw [Function.iterate_succ_apply', hk, T.parent_child hv (List.mem_toFinset.mp hc)]

/-- everything is under the root -/
theorem subtree_root : T.subtree T.root = T.nodes := by
  ext v
  rw [mem_subtree]
  exact ⟨fun h => h.1, fun h => ⟨h, T.exists_iterate_root h⟩⟩

variable (T)

/-! ## Renaming -/

/-- the tree with its nodes renamed by `f`; `g` gives the old names back -/
def map (f g : ℕ → ℕ) (h : ∀ v ∈ T.nodes, g (f v) = v) : ParentTree where
  nodes := T.nodes.image f
  root := f T.root
  parent v := f (T.parent (g v))
  children v := (T.children (g v)).map f
  depth v := T.depth (g v)
  root_mem := Finset.mem_image_of_mem f T.root_mem
  parent_root := by rw [h _ T.root_mem, T.parent_root]
  parent_mem v hv := by
    obtain ⟨x, hx, rfl⟩ := Finset.mem_image.mp hv
    rw [h x hx]
    exact Finset.mem_image_of_mem f (T.parent_mem x hx)
  mem_children v hv c := by
    obtain ⟨x, hx, rfl⟩ := Finset.mem_image.mp hv
    rw [h x hx, List.mem_map]
    constructor
    · rintro ⟨y, hy, rfl⟩
      have hym := T.child_mem hx hy
      refine ⟨Finset.mem_image_of_mem f hym, ?_, by rw [h y hym, T.parent_child hx hy]⟩
      intro heq
      have hback := congrArg g heq
      rw [h y hym, h _ T.root_mem] at hback
      exact T.child_ne_root hx hy hback
    · rintro ⟨hc, hne, hp⟩
      obtain ⟨y, hy, rfl⟩ := Finset.mem_image.mp hc
      rw [h y hy] at hp
      have hback := congrArg g hp
      rw [h _ (T.parent_mem y hy), h x hx] at hback
      refine ⟨y, ?_, rfl⟩
      rw [← hback]
      exact T.mem_children_parent hy fun heq => hne (heq ▸ rfl)
  nodup v hv := by
    obtain ⟨x, hx, rfl⟩ := Finset.mem_image.mp hv
    rw [h x hx]
    refine (T.nodup x hx).map_on ?_
    intro a ha b hb hab
    have hback := congrArg g hab
    rwa [h a (T.child_mem hx ha), h b (T.child_mem hx hb)] at hback
  depth_parent v hv hne := by
    obtain ⟨x, hx, rfl⟩ := Finset.mem_image.mp hv
    rw [h x hx, h _ (T.parent_mem x hx)]
    exact T.depth_parent x hx fun heq => hne (heq ▸ rfl)

end ParentTree

/-! ## Nodes of any kind -/

/-- what the nodes have computed, each for itself, is a spanning tree; the root is its own parent -/
structure SpanningTree {α : Type} (nodes : Set α) (root : α) (parent : α → α) (children : α → List α) : Prop where
  parent_mem : ∀ v ∈ nodes, parent v ∈ nodes
  child_mem : ∀ v ∈ nodes, ∀ c ∈ children v, c ∈ nodes
  child_iff : ∀ v ∈ nodes, ∀ c ∈ nodes, c ∈ children v ↔ parent c = v ∧ c ≠ root
  nodup : ∀ v ∈ nodes, (children v).Nodup
  parent_self : ∀ v ∈ nodes, parent v = v ↔ v = root
  reach : ∀ v ∈ nodes, ∃ k, parent^[k] v = root

/-- nodes that compute their places in a tree, under other names -/
theorem ParentTree.spanningTree (T : ParentTree) {α : Type} {f : ℕ → α} (hf : f.Injective) {parent : α → α}
    {children : α → List α} (hparent : ∀ v ∈ T.nodes, parent (f v) = f (T.parent v))
    (hchildren : ∀ v ∈ T.nodes, children (f v) = (T.children v).map f) :
    SpanningTree (f '' T.nodes) (f T.root) parent children where
  parent_mem := by
    rintro _ ⟨v, hv, rfl⟩
    rw [hparent v hv]
    exact Set.mem_image_of_mem f (T.parent_mem v hv)
  child_mem := by
    rintro _ ⟨v, hv, rfl⟩ c hc
    rw [hchildren v hv] at hc
    obtain ⟨x, hx, rfl⟩ := List.mem_map.mp hc
    exact Set.mem_image_of_mem f (T.child_mem hv hx)
  child_iff := by
    rintro _ ⟨v, hv, rfl⟩ _ ⟨c, hc, rfl⟩
    rw [hchildren v hv, List.mem_map_of_injective hf, hparent c hc, hf.eq_iff, hf.ne_iff, T.mem_children v hv]
    exact ⟨fun ⟨_, hne, heq⟩ => ⟨heq, hne⟩, fun ⟨heq, hne⟩ => ⟨hc, hne, heq⟩⟩
  nodup := by
    rintro _ ⟨v, hv, rfl⟩
    rw [hchildren v hv]
    exact (T.nodup v hv).map hf
  parent_self := by
    rintro _ ⟨v, hv, rfl⟩
    rw [hparent v hv, hf.eq_iff, hf.eq_iff]
    exact T.parent_eq_self hv
  reach := by
    rintro _ ⟨v, hv, rfl⟩
    obtain ⟨k, hk⟩ := T.exists_iterate_root hv
    have hiterate : ∀ n, parent^[n] (f v) = f (T.parent^[n] v) := by
      intro n
      induction n with
      | zero => rfl
      | succ n ih => rw [Function.iterate_succ_apply', ih, hparent _ (iterate_mem hv n), Function.iterate_succ_apply']
    exact ⟨k, by rw [hiterate, hk]⟩
