/-
Tries in memory. Each node has links to its two children and its parent, and its chain is a ring of which the node is one;
the other items of the ring have no children and no parent. No node is 0.

- `Linked`: the links are those of a trie.
- `Ctx`, `linked_plug`: what is around a subtree.
- `Linked.hang`, `Linked.chain_insert`: a new leaf, and a new item of a chain.
- `Linked.chain_remove`, `Linked.last_out`, `Linked.leaf_out`, `Linked.replace`: how an item is removed.
-/
import SandiaShmem.Core.BitTrie
import SandiaShmem.Core.Rings

namespace LinkedTrie

open BitTrie Rings

/-- the links of a node -/
inductive Field where
  | fd
  | bk
  | child (second : Bool)
  | parent
deriving DecidableEq, Repr

abbrev Links (α : Type*) := Field → α → α

variable {α : Type*}

/-- a link is set -/
def set [DecidableEq α] (L : Links α) (f : Field) (x v : α) : Links α := fun g y => if y = x ∧ g = f then v else L g y

/-- the root, or 0 -/
def ptr [Zero α] : Trie α → α
  | .nil => 0
  | .node t .. => t

/-- the ring of a node, and its other items -/
structure Ring [Zero α] (L : Links α) (t : α) (chain : List α) : Prop where
  path : Path (L .fd) (L .bk) t chain t
  parent : ∀ c ∈ chain, L .parent c = 0
  child : ∀ c ∈ chain, ∀ b, L (.child b) c = 0

/-- the trie is in memory, and p is the parent of its root -/
def Linked [Zero α] (L : Links α) : α → Trie α → Prop
  | _, .nil => True
  | p, .node t chain l r =>
    (L .parent t = p ∧ L (.child false) t = ptr l ∧ L (.child true) t = ptr r ∧ Ring L t chain) ∧
      Linked L t l ∧ Linked L t r

/-! ## Around a subtree -/

/-- a node whose child is looked at: which one, and what else hangs on the node -/
structure Frame (α : Type*) where
  second : Bool
  node : α
  chain : List α
  other : Trie α

/-- from the root down -/
abbrev Ctx (α : Type*) := List (Frame α)

def Frame.fill (e : Frame α) (S : Trie α) : Trie α :=
  if e.second then .node e.node e.chain e.other S else .node e.node e.chain S e.other

/-- a subtree in its place -/
def plug : Ctx α → Trie α → Trie α
  | [], S => S
  | e :: c, S => e.fill (plug c S)

/-- the parent of the subtree -/
def above (p : α) : Ctx α → α
  | [] => p
  | e :: c => above e.node c

/-- where the link to the subtree is: which child of which node -/
def slot (d : α × Bool) : Ctx α → α × Bool
  | [] => d
  | e :: c => slot (e.node, e.second) c

/-- the root, where v is that of the subtree -/
def entry (v : α) : Ctx α → α
  | [] => v
  | e :: _ => e.node

/-- the link to the subtree is set -/
def setHole [DecidableEq α] (L : Links α) (c : Ctx α) (w : α) : Links α :=
  match c.getLast? with
  | none => L
  | some e => set L (.child e.second) e.node w

/-- v is the child that is looked at -/
structure LinkedFrame [Zero α] (L : Links α) (p : α) (e : Frame α) (v : α) : Prop where
  parent : L .parent e.node = p
  child : L (.child e.second) e.node = v
  other : L (.child !e.second) e.node = ptr e.other
  ring : Ring L e.node e.chain
  linked : Linked L e.node e.other

def LinkedCtx [Zero α] (L : Links α) : α → Ctx α → α → Prop
  | _, [], _ => True
  | p, e :: c, v => LinkedFrame L p e (entry v c) ∧ LinkedCtx L e.node c v

section
variable {c c' : Ctx α} {e : Frame α} {S T l r : Trie α} {p t v x y X R F : α} {chain : List α} {b : Bool} {f g : Field}

theorem items_fill : (e.fill S).items = (e.fill .nil).items + S.items := by
  unfold Frame.fill
  split_ifs
  · simp only [Trie.items_node, Trie.items_nil, add_zero]
  · simp only [Trie.items_node, Trie.items_nil]
    abel

theorem items_plug : (plug c S).items = (plug c .nil).items + S.items := by
  induction c with
  | nil => simp [plug]
  | cons e c ih =>
    rw [plug, items_fill, ih, plug, items_fill (S := plug c .nil)]
    abel

theorem mem_items : x ∈ T.items ↔ x ∈ T.toList := Multiset.mem_coe

theorem mem_fill : x ∈ (e.fill S).toList ↔ x = e.node ∨ x ∈ e.chain ∨ x ∈ e.other.toList ∨ x ∈ S.toList := by
  unfold Frame.fill
  split_ifs
  · simp only [Trie.toList, List.mem_cons, List.mem_append]
  · simp only [Trie.toList, List.mem_cons, List.mem_append]
    tauto

theorem mem_plug : x ∈ (plug c S).toList ↔ x ∈ (plug c .nil).toList ∨ x ∈ S.toList := by
  rw [← mem_items, items_plug, Multiset.mem_add, mem_items, mem_items]

theorem plug_append : plug (c ++ c') S = plug c (plug c' S) := by
  induction c with
  | nil => rfl
  | cons e c ih => rw [List.cons_append, plug, ih, plug]

theorem above_append : above p (c ++ c') = above (above p c) c' := by
  induction c generalizing p with
  | nil => rfl
  | cons e c ih => rw [List.cons_append, above, ih, above]

theorem slot_append (d : α × Bool) : slot d (c ++ e :: c') = slot (e.node, e.second) c' := by
  induction c generalizing d with
  | nil => rfl
  | cons e' c ih => exact ih _

/-- what is around a subtree, and the subtree, have no item twice and none in common -/
theorem nodup_plug : (plug c S).toList.Nodup ↔
    (plug c .nil).toList.Nodup ∧ S.toList.Nodup ∧ ∀ x ∈ (plug c .nil).toList, x ∉ S.toList := by
  have hperm : (plug c S).toList.Perm ((plug c .nil).toList ++ S.toList) := by
    rw [← Multiset.coe_eq_coe, ← Multiset.coe_add]
    exact items_plug
  rw [hperm.nodup_iff, List.nodup_append]
  refine and_congr_right fun _ => and_congr_right fun _ => ?_
  constructor
  · exact fun h x hx hx' => h x hx x hx' rfl
  · rintro h x hx y hy rfl
    exact h x hx hy

theorem nodup_fill (h : (e.fill S).toList.Nodup) : e.node ∉ e.chain ∧ e.node ∉ e.other.toList ∧ e.node ∉ S.toList := by
  unfold Frame.fill at h
  split_ifs at h <;>
  · simp only [Trie.toList, List.nodup_cons, List.mem_append, not_or] at h
    tauto

theorem nodup_of_items (h : S.items = T.items) : S.toList.Nodup ↔ T.toList.Nodup :=
  (Multiset.coe_eq_coe.mp h).nodup_iff

/-- every item is at a node or in its chain -/
theorem exists_plug (h : x ∈ T.toList) :
    ∃ c t chain l r, T = plug c (.node t chain l r) ∧ (x = t ∨ x ∈ chain) := by
  induction T with
  | nil => cases h
  | node t chain l r ihl ihr =>
    simp only [Trie.toList, List.mem_cons, List.mem_append] at h
    rcases h with h | h | h | h
    · exact ⟨[], t, chain, l, r, rfl, .inl h⟩
    · exact ⟨[], t, chain, l, r, rfl, .inr h⟩
    · obtain ⟨c, t', chain', l', r', rfl, hx⟩ := ihl h
      exact ⟨⟨false, t, chain, r⟩ :: c, t', chain', l', r', rfl, hx⟩
    · obtain ⟨c, t', chain', l', r', rfl, hx⟩ := ihr h
      exact ⟨⟨true, t, chain, l⟩ :: c, t', chain', l', r', rfl, hx⟩

/-- removal from a subtree -/
theorem remove_plug [DecidableEq α] (h : x ∉ (plug c .nil).toList) : (plug c S).remove x = plug c (S.remove x) := by
  induction c with
  | nil => rfl
  | cons e c ih =>
    simp only [plug, mem_fill, not_or] at h
    obtain ⟨hne, hchain, hother, hrest⟩ := h
    have hrem := Trie.remove_of_not_mem hother
    rw [plug, plug, ← ih hrest]
    unfold Frame.fill
    split_ifs <;> rw [Trie.remove, if_neg hne, if_neg hchain, hrem]

/-! ## Links -/

section
variable [DecidableEq α] {L : Links α}

@[simp] theorem set_self : set L f x v f x = v := if_pos ⟨rfl, rfl⟩

theorem set_of_node (h : y ≠ x) : set L f x v g y = L g y := if_neg fun hy => h hy.1

theorem set_of_field (h : g ≠ f) : set L f x v g = L g := funext fun _ => if_neg fun hg => h hg.2

@[simp] theorem setHole_nil {w : α} : setHole L [] w = L := rfl

@[simp] theorem setHole_concat {w : α} : setHole L (c ++ [e]) w = set L (.child e.second) e.node w := by
  rw [setHole, List.getLast?_concat]

/-- the links of the tree are not those of the rings -/
theorem unring_tree (hfd : f ≠ .fd) (hbk : f ≠ .bk) : set (set L .bk F R) .fd R F f y = L f y := by
  rw [set_of_field hfd, set_of_field hbk]

/-- a node leaves the path of a ring -/
theorem path_unring (h : Path (L .fd) (L .bk) t chain t) (hnodup : (t :: chain).Nodup) (hX : X ∈ chain)
    (hF : L .fd X = F) (hR : L .bk X = R) :
    Path (set (set L .bk F R) .fd R F .fd) (set (set L .bk F R) .fd R F .bk) t (chain.erase X) t := by
  refine h.remove hnodup hX ?_ ?_ (fun z _ hz _ => ?_) fun z _ hz _ => ?_
  · rw [hR, hF, set_self]
  · rw [hR, hF, set_of_field Field.noConfusion, set_self]
  · rw [set_of_node (hR ▸ hz), set_of_field Field.noConfusion]
  · rw [set_of_field Field.noConfusion, set_of_node (hF ▸ hz)]

end

variable [Zero α] {L L' : Links α}

theorem ptr_mem (h : ptr T ≠ 0) : ptr T ∈ T.toList := by
  cases T with
  | nil => exact absurd rfl h
  | node t chain l r => exact List.mem_cons_self

theorem ptr_eq_zero (h : (0 : α) ∉ T.toList) : ptr T = 0 ↔ T = .nil := by
  cases T with
  | nil => simp [ptr]
  | node t chain l r =>
    refine iff_of_false (fun h0 => h ?_) nofun
    rw [← h0]
    exact List.mem_cons_self

theorem ptr_plug : ptr (plug c S) = entry (ptr S) c := by
  cases c with
  | nil => rfl
  | cons e c =>
    rw [plug, Frame.fill]
    split_ifs <;> rfl

theorem Ring.congr (h : Ring L t chain) (heq : ∀ x ∈ t :: chain, ∀ f, L' f x = L f x) : Ring L' t chain where
  path := h.path.congr (fun x hx => heq x hx _) fun x hx => heq x (by simpa [or_comm] using hx) _
  parent x hx := (heq x (List.mem_cons_of_mem _ hx) _).trans (h.parent x hx)
  child x hx b := (heq x (List.mem_cons_of_mem _ hx) _).trans (h.child x hx b)

/-- only the links of the items matter -/
theorem Linked.congr (h : Linked L p T) (heq : ∀ x ∈ T.toList, ∀ f, L' f x = L f x) : Linked L' p T := by
  induction T generalizing p with
  | nil => trivial
  | node t chain l r ihl ihr =>
    obtain ⟨⟨hp, hl, hr, hring⟩, hLl, hLr⟩ := h
    simp only [Trie.toList, List.mem_cons, List.mem_append] at heq
    have ht := heq t (.inl rfl)
    refine ⟨⟨(ht _).trans hp, (ht _).trans hl, (ht _).trans hr, hring.congr fun x hx => ?_⟩, ihl hLl ?_, ihr hLr ?_⟩
    · exact heq x ((List.mem_cons.mp hx).imp_right .inl)
    · exact fun x hx => heq x (.inr (.inr (.inl hx)))
    · exact fun x hx => heq x (.inr (.inr (.inr hx)))

theorem LinkedFrame.congr (h : LinkedFrame L p e v) (heq : ∀ x ∈ (e.fill .nil).toList, ∀ f, L' f x = L f x) :
    LinkedFrame L' p e v := by
  simp only [mem_fill] at heq
  have ht := heq e.node (.inl rfl)
  refine ⟨(ht _).trans h.parent, (ht _).trans h.child, (ht _).trans h.other, h.ring.congr fun x hx => ?_,
    h.linked.congr fun x hx => heq x (.inr (.inr (.inl hx)))⟩
  exact heq x ((List.mem_cons.mp hx).imp_right .inl)

theorem LinkedCtx.congr (h : LinkedCtx L p c v) (heq : ∀ x ∈ (plug c .nil).toList, ∀ f, L' f x = L f x) :
    LinkedCtx L' p c v := by
  induction c generalizing p with
  | nil => trivial
  | cons e c ih =>
    simp only [plug, mem_fill] at heq
    refine ⟨h.1.congr fun x hx => heq x ?_, ih h.2 fun x hx => heq x (.inr (.inr (.inr hx)))⟩
    rw [mem_fill] at hx
    rcases hx with hx | hx | hx | hx
    · exact .inl hx
    · exact .inr (.inl hx)
    · exact .inr (.inr (.inl hx))
    · cases hx

theorem linked_fill : Linked L p (e.fill S) ↔ LinkedFrame L p e (ptr S) ∧ Linked L e.node S := by
  obtain ⟨second, node, chain, other⟩ := e
  cases second
  · constructor
    · rintro ⟨⟨hp, hl, hr, hring⟩, hS, hother⟩
      exact ⟨⟨hp, hl, hr, hring, hother⟩, hS⟩
    · rintro ⟨⟨hp, hl, hr, hring, hother⟩, hS⟩
      exact ⟨⟨hp, hl, hr, hring⟩, hS, hother⟩
  · constructor
    · rintro ⟨⟨hp, hl, hr, hring⟩, hother, hS⟩
      exact ⟨⟨hp, hr, hl, hring, hother⟩, hS⟩
    · rintro ⟨⟨hp, hr, hl, hring, hother⟩, hS⟩
      exact ⟨⟨hp, hl, hr, hring⟩, hother, hS⟩

/-- **A trie is linked if its parts are.** -/
theorem linked_plug : Linked L p (plug c S) ↔ LinkedCtx L p c (ptr S) ∧ Linked L (above p c) S := by
  induction c generalizing p with
  | nil => exact ⟨fun h => ⟨trivial, h⟩, fun h => h.2⟩
  | cons e c ih =>
    rw [plug, linked_fill, ptr_plug, ih, ← and_assoc]
    rfl

theorem linkedCtx_append : LinkedCtx L p (c ++ c') v ↔ LinkedCtx L p c (entry v c') ∧ LinkedCtx L (above p c) c' v := by
  induction c generalizing p with
  | nil => exact ⟨fun h => ⟨trivial, h⟩, fun h => h.2⟩
  | cons e c ih =>
    have hentry : entry v (c ++ c') = entry (entry v c') c := by
      cases c <;> rfl
    simp only [List.cons_append, LinkedCtx, ih, hentry, above, and_assoc]

theorem linked_leaf (hparent : L .parent X = p) (hchild : ∀ b, L (.child b) X = 0) (hfd : L .fd X = X) (hbk : L .bk X = X) :
    Linked L p (.node X [] .nil .nil) :=
  ⟨⟨hparent, hchild false, hchild true, ⟨hfd, hbk⟩, nofun, nofun⟩, trivial, trivial⟩

/-- a node X has been taken out of its place, which v is to have, and R with its chain is to replace it -/
structure Vacant (L : Links α) (p : α) (c : Ctx α) (v X R : α) (chain : List α) (l r : Trie α) : Prop where
  ctx : LinkedCtx L p c v
  parent : L .parent X = above p c
  first : L (.child false) X = ptr l
  second : L (.child true) X = ptr r
  left : Linked L X l
  right : Linked L X r
  ring : Ring L R chain
  leaf : ∀ b, L (.child b) R = 0

theorem Vacant.congr (h : Vacant L p c v X R chain l r)
    (heq : ∀ y ∈ (plug c (.node X (R :: chain) l r)).toList, ∀ f, L' f y = L f y) : Vacant L' p c v X R chain l r := by
  replace heq := fun y hy => heq y (mem_plug.mpr hy)
  simp only [Trie.toList, List.mem_cons, List.mem_append] at heq
  have hX := heq X (.inr (.inl rfl))
  exact ⟨h.ctx.congr fun y hy => heq y (.inl hy), (hX _).trans h.parent, (hX _).trans h.first, (hX _).trans h.second,
    h.left.congr fun y hy => heq y (.inr (.inr (.inr (.inl hy)))),
    h.right.congr fun y hy => heq y (.inr (.inr (.inr (.inr hy)))),
    h.ring.congr fun y hy => heq y (.inr (.inr (.inl (List.mem_cons.mp hy)))),
    fun b => (heq R (.inr (.inr (.inl (.inl rfl)))) _).trans (h.leaf b)⟩

/-! ## One link is set -/

section
variable [DecidableEq α]

theorem Linked.set_other (h : Linked L p T) (hx : x ∉ T.toList) : Linked (set L f x v) p T :=
  h.congr fun _ hy _ => set_of_node fun heq => hx (heq ▸ hy)

theorem LinkedCtx.set_other {w : α} (h : LinkedCtx L p c v) (hx : x ∉ (plug c .nil).toList) :
    LinkedCtx (set L f x w) p c v :=
  h.congr fun _ hy _ => set_of_node fun heq => hx (heq ▸ hy)

theorem Ring.set_other (h : Ring L t chain) (hx : x ∉ t :: chain) : Ring (set L f x v) t chain :=
  h.congr fun _ hy _ => set_of_node fun heq => hx (heq ▸ hy)

/-- a link to a child or the parent, of the node itself -/
theorem Ring.set_tree (h : Ring L t chain) (hnot : x ∉ chain) (hfd : f ≠ .fd) (hbk : f ≠ .bk) :
    Ring (set L f x v) t chain where
  path := by
    rw [set_of_field hfd.symm, set_of_field hbk.symm]
    exact h.path
  parent y hy := (set_of_node (ne_of_mem_of_not_mem hy hnot)).trans (h.parent y hy)
  child y hy b := (set_of_node (ne_of_mem_of_not_mem hy hnot)).trans (h.child y hy b)

/-- the root gets another parent -/
theorem Linked.reparent (h : Linked L p T) (hnodup : T.toList.Nodup) : Linked (set L .parent (ptr T) x) x T := by
  cases T with
  | nil => trivial
  | node t chain l r =>
    obtain ⟨⟨-, hl, hr, hring⟩, hLl, hLr⟩ := h
    simp only [Trie.toList, List.nodup_cons, List.mem_append, not_or] at hnodup
    obtain ⟨⟨hchain, htl, htr⟩, -⟩ := hnodup
    refine ⟨⟨set_self, ?_, ?_, hring.set_tree hchain Field.noConfusion Field.noConfusion⟩, hLl.set_other htl,
      hLr.set_other htr⟩
    · rw [set_of_field Field.noConfusion, hl]
    · rw [set_of_field Field.noConfusion, hr]

/-- another subtree is hung where this one was -/
theorem LinkedCtx.set_hole {w : α} (h : LinkedCtx L p (c ++ [e]) v) (hnodup : (plug (c ++ [e]) .nil).toList.Nodup) :
    LinkedCtx (set L (.child e.second) e.node w) p (c ++ [e]) w := by
  rw [plug_append, nodup_plug] at hnodup
  obtain ⟨-, hnode, hapart⟩ := hnodup
  rw [linkedCtx_append] at h ⊢
  obtain ⟨hctx, hframe, -⟩ := h
  have hmem : e.node ∈ (plug [e] Trie.nil).toList := mem_fill.mpr (.inl rfl)
  obtain ⟨hchain, hother, -⟩ := nodup_fill hnode
  refine ⟨hctx.set_other fun hx => hapart _ hx hmem, ⟨?_, set_self, ?_, ?_, ?_⟩, trivial⟩
  · rw [set_of_field Field.noConfusion, hframe.parent]
  · rw [set_of_field (by cases e.second <;> decide), hframe.other]
  · exact hframe.ring.set_tree hchain Field.noConfusion Field.noConfusion
  · exact hframe.linked.set_other hother

theorem LinkedCtx.setHole {w : α} (h : LinkedCtx L p c v) (hnodup : (plug c .nil).toList.Nodup) :
    LinkedCtx (setHole L c w) p c w := by
  rcases List.eq_nil_or_concat' c with rfl | ⟨c, e, rfl⟩
  · trivial
  · rw [setHole_concat]
    exact h.set_hole hnodup

/-! ## Insertion -/

/-- **A new leaf.** -/
theorem Linked.hang (h : Linked L p (plug (c ++ [e]) .nil)) (hnodup : (plug (c ++ [e]) .nil).toList.Nodup)
    (hX : X ∉ (plug (c ++ [e]) .nil).toList) (hchild : ∀ b, L (.child b) X = 0) :
    Linked (set (set (set (set L (.child e.second) e.node X) .parent X e.node) .bk X X) .fd X X) p
      (plug (c ++ [e]) (.node X [] .nil .nil)) := by
  have hmem : e.node ∈ (plug (c ++ [e]) Trie.nil).toList := by
    rw [plug_append, mem_plug]
    exact .inr (mem_fill.mpr (.inl rfl))
  have hne : X ≠ e.node := fun heq => hX (heq ▸ hmem)
  rw [linked_plug] at h ⊢
  refine ⟨(((h.1.set_hole hnodup).set_other hX).set_other hX).set_other hX, linked_leaf ?_ (fun b => ?_) set_self ?_⟩
  · rw [set_of_field Field.noConfusion, set_of_field Field.noConfusion, set_self, above_append]
    rfl
  · rw [set_of_field Field.noConfusion, set_of_field Field.noConfusion, set_of_field Field.noConfusion, set_of_node hne,
      hchild]
  · rw [set_of_field Field.noConfusion, set_self]

/-- **A new item of a chain.** It comes first. -/
theorem Linked.chain_insert (h : Linked L p (plug c (.node t chain l r)))
    (hnodup : (plug c (.node t chain l r)).toList.Nodup) (hX : X ∉ (plug c (.node t chain l r)).toList)
    (hchild : ∀ b, L (.child b) X = 0) (hF : L .fd t = F) :
    Linked (set (set (set (set (set L .bk F X) .fd t X) .fd X F) .bk X t) .parent X 0) p
      (plug c (.node t (X :: chain) l r)) := by
  obtain ⟨hctx, ⟨hp, hl, hr, hring⟩, hLl, hLr⟩ := linked_plug.mp h
  obtain ⟨-, hnode, hapart⟩ := nodup_plug.mp hnodup
  rw [mem_plug] at hX
  have hFmem : F ∈ t :: chain := by
    rw [← hF, hring.path.fd_eq]
    simpa [or_comm] using headD_mem t chain
  simp only [Trie.toList, List.nodup_cons, List.nodup_append, List.mem_append, List.mem_cons, not_or]
    at hnode hapart hX hFmem
  obtain ⟨⟨htc, htl, htr⟩, hcn, -, hcd⟩ := hnode
  obtain ⟨hXc, hXt, hXch, hXl, hXr⟩ := hX
  have hFX : F ≠ X := by
    rintro rfl
    exact hFmem.elim (fun heq => hXt heq) hXch
  -- what has neither t nor the chain nor X in it is as before
  have hout : ∀ y, y ≠ t → y ∉ chain → y ≠ X → ∀ f,
      set (set (set (set (set L .bk F X) .fd t X) .fd X F) .bk X t) .parent X 0 f y = L f y := by
    intro y hyt hyc hyX f
    have hyF : y ≠ F := fun heq => hFmem.elim (fun h => hyt (heq.trans h)) fun h => hyc (heq ▸ h)
    rw [set_of_node hyX, set_of_node hyX, set_of_node hyX, set_of_node hyt, set_of_node hyF]
  -- and so are the links of the tree, except at X
  have htree : ∀ y, y ≠ X → ∀ f, f ≠ .fd → f ≠ .bk →
      set (set (set (set (set L .bk F X) .fd t X) .fd X F) .bk X t) .parent X 0 f y = L f y := by
    intro y hyX f hfd hbk
    rw [set_of_node hyX, set_of_field hbk, set_of_field hfd, set_of_field hfd, set_of_field hbk]
  have htX : t ≠ X := Ne.symm hXt
  refine linked_plug.mpr ⟨hctx.congr fun y hy => hout y ?_ ?_ ?_, ⟨?_, ?_, ?_, ?_, fun y hy => ?_, fun y hy b => ?_⟩,
    hLl.congr fun y hy => hout y ?_ ?_ ?_, hLr.congr fun y hy => hout y ?_ ?_ ?_⟩
  · exact (hapart y hy).1
  · exact (hapart y hy).2.1
  · exact fun heq => hXc (heq ▸ hy)
  · rw [htree t htX _ Field.noConfusion Field.noConfusion, hp]
  · rw [htree t htX _ Field.noConfusion Field.noConfusion, hl]
  · rw [htree t htX _ Field.noConfusion Field.noConfusion, hr]
  · refine hring.path.insert (List.nodup_cons.mpr ⟨htc, hcn⟩) ?_ ?_ ?_ ?_ (fun z hz => ?_) fun z hz hzF => ?_
    · rw [set_of_field Field.noConfusion, set_of_field Field.noConfusion, set_of_node htX, set_self]
    · rw [set_of_field Field.noConfusion, set_of_field Field.noConfusion, set_self, hF]
    · rw [hF, set_of_field Field.noConfusion, set_of_node hFX, set_of_field Field.noConfusion,
        set_of_field Field.noConfusion, set_self]
    · rw [set_of_field Field.noConfusion, set_self]
    · have hzX : z ≠ X := fun heq => hXch (heq ▸ hz)
      have hzt : z ≠ t := fun heq => htc (heq ▸ hz)
      rw [set_of_node hzX, set_of_node hzX, set_of_node hzX, set_of_node hzt, set_of_field Field.noConfusion]
    · have hzX : z ≠ X := by
        rintro rfl
        exact (List.mem_cons.mp hz).elim hXt hXch
      rw [set_of_node hzX, set_of_node hzX, set_of_node hzX, set_of_field Field.noConfusion, set_of_node (hF ▸ hzF)]
  · rcases List.mem_cons.mp hy with rfl | hy
    · exact set_self
    · rw [htree y (fun heq => hXch (heq ▸ hy)) _ Field.noConfusion Field.noConfusion, hring.parent y hy]
  · rcases List.mem_cons.mp hy with rfl | hy
    · rw [set_of_field Field.noConfusion, set_of_field Field.noConfusion, set_of_field Field.noConfusion,
        set_of_field Field.noConfusion, set_of_field Field.noConfusion, hchild]
    · rw [htree y (fun heq => hXch (heq ▸ hy)) _ Field.noConfusion Field.noConfusion, hring.child y hy]
  · exact fun heq => htl (heq ▸ hy)
  · exact fun hyc => hcd y hyc y (.inl hy) rfl
  · exact fun heq => hXl (heq ▸ hy)
  · exact fun heq => htr (heq ▸ hy)
  · exact fun hyc => hcd y hyc y (.inr hy) rfl
  · exact fun heq => hXr (heq ▸ hy)

/-! ## Removal -/

/-- **An item of a chain is removed.** -/
theorem Linked.chain_remove (h : Linked L p (plug c (.node t chain l r)))
    (hnodup : (plug c (.node t chain l r)).toList.Nodup) (hX : X ∈ chain) (hF : L .fd X = F) (hR : L .bk X = R) :
    Linked (set (set L .bk F R) .fd R F) p (plug c (.node t (chain.erase X) l r)) := by
  obtain ⟨hctx, ⟨hp, hl, hr, hring⟩, hLl, hLr⟩ := linked_plug.mp h
  obtain ⟨-, hnode, hapart⟩ := nodup_plug.mp hnodup
  obtain ⟨hFmem, hRmem, -, -⟩ := hring.path.ring_mem hX
  rw [hF] at hFmem
  rw [hR] at hRmem
  simp only [Trie.toList, List.nodup_cons, List.nodup_append, List.mem_append, List.mem_cons, not_or] at hnode hapart
  obtain ⟨⟨htc, htl, htr⟩, hcn, -, hcd⟩ := hnode
  have hout : ∀ y, y ≠ t → y ∉ chain → ∀ f, set (set L .bk F R) .fd R F f y = L f y := by
    intro y hyt hyc f
    have hyF : y ≠ F := fun heq => hFmem.elim (fun h => hyt (heq.trans h)) fun h => hyc (heq ▸ h)
    have hyR : y ≠ R := fun heq => hRmem.elim (fun h => hyt (heq.trans h)) fun h => hyc (heq ▸ h)
    rw [set_of_node hyR, set_of_node hyF]
  refine linked_plug.mpr ⟨hctx.congr fun y hy => hout y (hapart y hy).1 (hapart y hy).2.1,
    ⟨?_, ?_, ?_, path_unring hring.path (List.nodup_cons.mpr ⟨htc, hcn⟩) hX hF hR, fun y hy => ?_, fun y hy b => ?_⟩,
    hLl.congr fun y hy => hout y ?_ ?_, hLr.congr fun y hy => hout y ?_ ?_⟩
  · rw [unring_tree Field.noConfusion Field.noConfusion, hp]
  · rw [unring_tree Field.noConfusion Field.noConfusion, hl]
  · rw [unring_tree Field.noConfusion Field.noConfusion, hr]
  · rw [unring_tree Field.noConfusion Field.noConfusion, hring.parent y (List.mem_of_mem_erase hy)]
  · rw [unring_tree Field.noConfusion Field.noConfusion, hring.child y (List.mem_of_mem_erase hy)]
  · exact fun heq => htl (heq ▸ hy)
  · exact fun hyc => hcd y hyc y (.inl hy) rfl
  · exact fun heq => htr (heq ▸ hy)
  · exact fun hyc => hcd y hyc y (.inr hy) rfl

/-- **The last of the chain leaves the ring.** Its place is that of the node. -/
theorem Linked.last_out (h : Linked L p (plug c (.node X (chain ++ [R]) l r)))
    (hnodup : (plug c (.node X (chain ++ [R]) l r)).toList.Nodup) (hF : L .fd X = F) :
    L .bk X = R ∧ Vacant (set (set L .bk F R) .fd R F) p c X X R chain l r := by
  obtain ⟨hctx, ⟨hp, hl, hr, hring⟩, hLl, hLr⟩ := linked_plug.mp h
  obtain ⟨-, hnode, hapart⟩ := nodup_plug.mp hnodup
  have hR : L .bk X = R := by
    rw [hring.path.bk_eq]
    simp
  have hFmem : F ∈ chain ++ [R] := by
    have hmem := headD_mem X (chain ++ [R])
    rw [← hring.path.fd_eq, hF] at hmem
    rcases List.mem_append.mp hmem with hmem | hmem
    · exact hmem
    · -- a ring of one node is not this one
      obtain rfl := List.mem_singleton.mp hmem
      have hbk := (hring.path.ring_mem (x := R) (by simp)).2.2.1
      have hfd := hring.path.fd_eq
      cases chain with
      | nil => simp_all
      | cons y ys => simp_all [Trie.toList]
  simp only [Trie.toList, List.nodup_cons, List.nodup_append, List.mem_append, List.mem_cons,
    List.not_mem_nil, or_false, not_or] at hnode hapart hFmem
  obtain ⟨⟨⟨hXc, hXR⟩, hXl, hXr⟩, ⟨hcn, -, hcR⟩, -, hcd⟩ := hnode
  have hout : ∀ y, y ∉ chain → y ≠ R → ∀ f, set (set L .bk F R) .fd R F f y = L f y := by
    intro y hyc hyR f
    have hyF : y ≠ F := fun heq => hFmem.elim (fun h => hyc (heq ▸ h)) fun h => hyR (heq.trans h)
    rw [set_of_node hyR, set_of_node hyF]
  have hpath : Path (set (set L .bk F R) .fd R F .fd) (set (set L .bk F R) .fd R F .bk) R chain R := by
    have hun := path_unring hring.path.rotate (X := X) ?_ List.mem_cons_self hF hR
    · rwa [List.erase_cons_head] at hun
    · simp only [List.nodup_cons, List.mem_cons, not_or]
      exact ⟨⟨Ne.symm hXR, fun hmem => hcR R hmem R rfl rfl⟩, hXc, hcn⟩
  refine ⟨hR, hctx.congr fun y hy => hout y ?_ ?_, ?_, ?_, ?_, hLl.congr fun y hy => hout y ?_ ?_,
    hLr.congr fun y hy => hout y ?_ ?_, ⟨hpath, fun y hy => ?_, fun y hy b => ?_⟩, fun b => ?_⟩
  · exact (hapart y hy).2.1.1
  · exact (hapart y hy).2.1.2
  · rw [unring_tree Field.noConfusion Field.noConfusion, hp]
  · rw [unring_tree Field.noConfusion Field.noConfusion, hl]
  · rw [unring_tree Field.noConfusion Field.noConfusion, hr]
  · exact fun hyc => hcd y (.inl hyc) y (.inl hy) rfl
  · exact fun heq => hcd R (.inr rfl) y (.inl hy) heq.symm
  · exact fun hyc => hcd y (.inl hyc) y (.inr hy) rfl
  · exact fun heq => hcd R (.inr rfl) y (.inr hy) heq.symm
  · rw [unring_tree Field.noConfusion Field.noConfusion, hring.parent y (List.mem_append_left _ hy)]
  · rw [unring_tree Field.noConfusion Field.noConfusion, hring.child y (List.mem_append_left _ hy)]
  · rw [unring_tree Field.noConfusion Field.noConfusion,
      hring.child R (List.mem_append_right _ (List.mem_singleton_self R))]

/-- **A leaf is cut off.** Its chain stays with it. -/
theorem Linked.leaf_out (h : Linked L p (plug (c ++ e :: c') (.node R chain .nil .nil)))
    (hnodup : (plug (c ++ e :: c') (.node R chain .nil .nil)).toList.Nodup) (hslot : slot (e.node, e.second) c' = (y, b)) :
    LinkedCtx (set L (.child b) y 0) p c e.node ∧
      LinkedFrame (set L (.child b) y 0) (above p c) e (ptr (plug c' .nil)) ∧
      Linked (set L (.child b) y 0) e.node (plug c' .nil) ∧ Ring (set L (.child b) y 0) R chain ∧
      ∀ b', set L (.child b) y 0 (.child b') R = 0 := by
  obtain ⟨c₁, e₁, heq⟩ : ∃ c₁ e₁, c ++ e :: c' = c₁ ++ [e₁] :=
    ⟨_, _, (List.dropLast_append_getLast (by simp)).symm⟩
  have hlast : slot (y, b) (c ++ e :: c') = slot (e.node, e.second) c' := slot_append (y, b)
  rw [heq, slot_append, hslot, slot] at hlast
  obtain ⟨rfl, rfl⟩ := Prod.mk.inj hlast
  obtain ⟨hctx, ⟨-, hl, hr, hring⟩, -, -⟩ := linked_plug.mp h
  obtain ⟨hcn, -, hapart⟩ := nodup_plug.mp hnodup
  have hmem : e₁.node ∈ (plug (c ++ e :: c') Trie.nil).toList := by
    rw [heq, plug_append, mem_plug]
    exact .inr (mem_fill.mpr (.inl rfl))
  have hout := hapart _ hmem
  simp only [Trie.toList, List.mem_cons, List.mem_append, List.not_mem_nil, or_false, not_or] at hout
  have hctx' : LinkedCtx (set L (.child e₁.second) e₁.node 0) p (c ++ e :: c') 0 := by
    rw [heq] at hctx hcn ⊢
    exact hctx.set_hole hcn
  obtain ⟨h₁, h₂, h₃⟩ := linkedCtx_append.mp hctx'
  have hrest : Linked (set L (.child e₁.second) e₁.node 0) e.node (plug c' .nil) := linked_plug.mpr ⟨h₃, trivial⟩
  refine ⟨h₁, ?_, hrest, hring.set_tree hout.2 Field.noConfusion Field.noConfusion, fun b' => ?_⟩
  · rw [ptr_plug]
    exact h₂
  · rw [set_of_node (Ne.symm hout.1)]
    cases b'
    · exact hl
    · exact hr

/-! ## Replacement -/

/-- the link to the place is set to what replaces the node -/
theorem Vacant.set_slot (h : Vacant L p (c ++ [e]) v X R chain l r)
    (hnodup : (plug (c ++ [e]) (.node X (R :: chain) l r)).toList.Nodup) :
    Vacant (set L (.child e.second) e.node R) p (c ++ [e]) R X R chain l r := by
  obtain ⟨hcn, -, hapart⟩ := nodup_plug.mp hnodup
  have hmem : e.node ∈ (plug (c ++ [e]) Trie.nil).toList := by
    rw [plug_append, mem_plug]
    exact .inr (mem_fill.mpr (.inl rfl))
  have hout := hapart _ hmem
  simp only [Trie.toList, List.mem_cons, List.mem_append, not_or] at hout
  obtain ⟨hX, ⟨hR, hchain⟩, hl, hr⟩ := hout
  refine ⟨h.ctx.set_hole hcn, ?_, ?_, ?_, h.left.set_other hl, h.right.set_other hr, h.ring.set_other ?_, fun b => ?_⟩
  · rw [set_of_field Field.noConfusion, h.parent]
  · rw [set_of_node (Ne.symm hX), h.first]
  · rw [set_of_node (Ne.symm hX), h.second]
  · rw [List.mem_cons, not_or]
    exact ⟨hR, hchain⟩
  · rw [set_of_node (Ne.symm hR), h.leaf]

theorem Vacant.setHole (h : Vacant L p c v X R chain l r) (hnodup : (plug c (.node X (R :: chain) l r)).toList.Nodup) :
    Vacant (setHole L c R) p c R X R chain l r := by
  rcases List.eq_nil_or_concat' c with rfl | ⟨c, e, rfl⟩
  · exact ⟨trivial, h.parent, h.first, h.second, h.left, h.right, h.ring, h.leaf⟩
  · rw [setHole_concat]
    exact h.set_slot hnodup

/-- a child of X becomes one of R -/
def adopt (L : Links α) (X R : α) (b : Bool) : Links α :=
  if L (.child b) X = 0 then L else set (set L (.child b) R (L (.child b) X)) .parent (L (.child b) X) R

theorem adopt_of_node (hR : y ≠ R) (hC : y ≠ L (.child b) X) : adopt L X R b f y = L f y := by
  unfold adopt
  split_ifs
  · rfl
  · rw [set_of_node hC, set_of_node hR]

theorem adopt_of_field (hchild : f ≠ .child b) (hparent : f ≠ .parent) : adopt L X R b f = L f := by
  unfold adopt
  split_ifs
  · rfl
  · rw [set_of_field hparent, set_of_field hchild]

theorem adopt_parent (hR : R ≠ L (.child b) X) : adopt L X R b .parent R = L .parent R := by
  unfold adopt
  split_ifs
  · rfl
  · rw [set_of_node hR, set_of_field Field.noConfusion]

theorem adopt_child (hleaf : L (.child b) R = 0) : adopt L X R b (.child b) R = L (.child b) X := by
  unfold adopt
  split_ifs with h0
  · rw [hleaf, h0]
  · rw [set_of_field Field.noConfusion, set_self]

theorem Linked.adopt (h : Linked L X T) (hT : L (.child b) X = ptr T) (hR : R ∉ T.toList) (hnodup : T.toList.Nodup)
    (h0 : (0 : α) ∉ T.toList) : Linked (adopt L X R b) R T := by
  unfold LinkedTrie.adopt
  rw [hT]
  split_ifs with hnil
  · rw [ptr_eq_zero h0] at hnil
    subst hnil
    trivial
  · exact (h.set_other hR).reparent hnodup

/-- **A node is replaced.** Its parent and its children become those of R. -/
theorem Vacant.replace (h : Vacant L p c R X R chain l r) (hnodup : (plug c (.node X (R :: chain) l r)).toList.Nodup)
    (h0 : (0 : α) ∉ (plug c (.node X (R :: chain) l r)).toList) :
    Linked (adopt (adopt (set L .parent R (above p c)) X R false) X R true) p (plug c (.node R chain l r)) := by
  obtain ⟨-, hnode, hapart⟩ := nodup_plug.mp hnodup
  rw [mem_plug] at h0
  simp only [Trie.toList, List.nodup_cons, List.nodup_append, List.mem_append, List.mem_cons, not_or] at hnode hapart h0
  obtain ⟨⟨⟨hXR, hXc⟩, hXl, hXr⟩, ⟨⟨hRc, -⟩, ⟨hln, hrn, hlr⟩, hcd⟩⟩ := hnode
  obtain ⟨h0c, h0X, ⟨h0R, h0ch⟩, h0l, h0r⟩ := h0
  have hRl : R ∉ l.toList := fun hmem => hcd R (.inl rfl) R (.inl hmem) rfl
  have hRr : R ∉ r.toList := fun hmem => hcd R (.inl rfl) R (.inr hmem) rfl
  have hsub : ∀ T : Trie α, ∀ y, y ∉ T.toList → y ≠ 0 → y ≠ ptr T := by
    rintro T y hy hy0 rfl
    exact hy (ptr_mem hy0)
  generalize hL₁ : set L .parent R (above p c) = L₁
  have hout₁ : ∀ y, y ≠ R → ∀ f, L₁ f y = L f y := fun y hy f => by rw [← hL₁, set_of_node hy]
  have hfield₁ : ∀ f, f ≠ .parent → L₁ f = L f := fun f hf => by rw [← hL₁, set_of_field hf]
  have hl₁ : L₁ (.child false) X = ptr l := (hout₁ X hXR _).trans h.first
  generalize hL₂ : adopt L₁ X R false = L₂
  have hout₂ : ∀ y, y ≠ R → y ∉ l.toList → y ≠ 0 → ∀ f, L₂ f y = L f y := fun y hy hyl hy0 f => by
    rw [← hL₂, adopt_of_node hy (hl₁ ▸ hsub l y hyl hy0), hout₁ y hy]
  have hr₂ : L₂ (.child true) X = ptr r := (hout₂ X hXR hXl (Ne.symm h0X) _).trans h.second
  generalize hL₃ : adopt L₂ X R true = L₃
  have hout₃ : ∀ y, y ≠ R → y ∉ l.toList → y ∉ r.toList → y ≠ 0 → ∀ f, L₃ f y = L f y := fun y hy hyl hyr hy0 f => by
    rw [← hL₃, adopt_of_node hy (hr₂ ▸ hsub r y hyr hy0), hout₂ y hy hyl hy0]
  have hring : ∀ f, f = .fd ∨ f = .bk → L₃ f = L f := by
    rintro f (rfl | rfl) <;>
    · rw [← hL₃, adopt_of_field Field.noConfusion Field.noConfusion, ← hL₂,
        adopt_of_field Field.noConfusion Field.noConfusion, hfield₁ _ Field.noConfusion]
  have hR0 : R ≠ 0 := Ne.symm h0R
  refine linked_plug.mpr ⟨h.ctx.congr fun y hy => hout₃ y ?_ ?_ ?_ ?_, ⟨?_, ?_, ?_, ?_, fun y hy => ?_, fun y hy b => ?_⟩,
    ?_, ?_⟩
  · exact (hapart y hy).2.1.1
  · exact (hapart y hy).2.2.1
  · exact (hapart y hy).2.2.2
  · exact ne_of_mem_of_not_mem hy h0c
  · rw [← hL₃, adopt_parent (hr₂ ▸ hsub r R hRr hR0), ← hL₂, adopt_parent (hl₁ ▸ hsub l R hRl hR0), ← hL₁, set_self]
  · rw [← hL₃, adopt_of_field (by simp) Field.noConfusion, ← hL₂, adopt_child, hl₁]
    rw [hfield₁ _ Field.noConfusion, h.leaf]
  · rw [← hL₃, adopt_child, hr₂]
    rw [← hL₂, adopt_of_field (by simp) Field.noConfusion, hfield₁ _ Field.noConfusion, h.leaf]
  · rw [hring _ (.inl rfl), hring _ (.inr rfl)]
    exact h.ring.path
  · rw [hout₃ y ?_ ?_ ?_ ?_, h.ring.parent y hy]
    · exact fun heq => hRc (heq ▸ hy)
    · exact fun hmem => hcd y (.inr hy) y (.inl hmem) rfl
    · exact fun hmem => hcd y (.inr hy) y (.inr hmem) rfl
    · exact ne_of_mem_of_not_mem hy h0ch
  · rw [hout₃ y ?_ ?_ ?_ ?_, h.ring.child y hy]
    · exact fun heq => hRc (heq ▸ hy)
    · exact fun hmem => hcd y (.inr hy) y (.inl hmem) rfl
    · exact fun hmem => hcd y (.inr hy) y (.inr hmem) rfl
    · exact ne_of_mem_of_not_mem hy h0ch
  · -- the first child is adopted, and the second one is none of its nodes
    have hleft : Linked L₁ X l := h.left.congr fun y hy => hout₁ y fun heq => hRl (heq ▸ hy)
    have hadopt : Linked L₂ R l := hL₂ ▸ hleft.adopt hl₁ hRl hln h0l
    refine hadopt.congr fun y hy f => ?_
    rw [← hL₃, adopt_of_node (ne_of_mem_of_not_mem hy hRl)]
    rw [hr₂]
    exact hsub r y (fun hmem => hlr y hy y hmem rfl) (ne_of_mem_of_not_mem hy h0l)
  · have hright : Linked L₂ X r := h.right.congr fun y hy =>
      hout₂ y (fun heq => hRr (heq ▸ hy)) (fun hmem => hlr y hmem y hy rfl) (ne_of_mem_of_not_mem hy h0r)
    exact hL₃ ▸ hright.adopt hr₂ hRr hrn h0r

end

end

end LinkedTrie
