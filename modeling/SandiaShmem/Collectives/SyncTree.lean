/-
The linear and the tree barrier.

Both are one protocol over a tree of the active set: a node waits for the call-ins of its children, calls in at its
parent, waits for the parent's ack, clears its counter and acks its children. All of it goes through one counter per PE,
`pSync[0]`, which is raised by the children and by the parent and cleared by a put of zero to itself. The linear barrier
is the protocol on the star, with acks that are puts of 1 instead of atomics. The members call it again and again with
nothing in between, and every message may be delivered at any later time.

For a node v, `u v` counts its call-ins that have been delivered, `z v` its clears, `a v` the acks it got.

- `Inv`: the counter of v is the number of call-ins and acks of its current round, in every state.
- `Inv.edge`: along an edge the counts stay within one round of each other.
- `Crowded.run_stuck`: where the indices of the children have overflowed nobody returns from the first call.
- `sync_reusable`: the barrier property, the value at return, and that no wait is overtaken and no add is lost.
-/
import SandiaShmem.Collectives.Calls
import SandiaShmem.Collectives.CallTree

namespace SandiaShmem.Collectives

open OneSided OneSided.Machine

/-! ## Model -/

/-- `shmem_internal_sync_linear` on the PE my_pe -/
def syncLinear (A : ActiveSet) (my_pe : ℕ) : List Instr :=
  if A.PE_start = my_pe then
    -- wait for N - 1 callins, clear pSync, send acks down
    [.enter, .waitUntil 0 .EQ (A.PE_size - 1 : ℕ), .putScalar 0 0 my_pe, .waitUntil 0 .EQ 0] ++
      (List.range (A.PE_size - 1)).map fun i => .putScalar 0 1 (A.PE_start + (i + 1) * A.PE_stride)
  else [.enter, .atomicAdd 0 1 A.PE_start, .waitUntil 0 .NE 0, .putScalar 0 0 my_pe, .waitUntil 0 .EQ 0]

/-- a node of the barrier protocol; `ack` is how it acks a child -/
def syncNode (ack : ℕ → Instr) (parent : ℕ) (children : List ℕ) (my_pe : ℕ) : List Instr :=
  if children ≠ [] then
    if parent = my_pe then
      -- the root of the tree
      [.enter, .waitUntil 0 .EQ children.length, .putScalar 0 0 my_pe, .waitUntil 0 .EQ 0] ++ children.map ack
    else
      -- middle of the tree
      [.enter, .waitUntil 0 .EQ children.length, .atomicAdd 0 1 parent, .waitUntil 0 .EQ (children.length + 1 : ℕ),
        .putScalar 0 0 my_pe, .waitUntil 0 .EQ 0] ++ children.map ack
  else
    -- leaf node
    [.enter, .atomicAdd 0 1 parent, .waitUntil 0 .NE 0, .putScalar 0 0 my_pe, .waitUntil 0 .EQ 0]

/-- `shmem_internal_sync_tree` on the PE my_pe -/
def syncTree (radix : ℕ) (A : ActiveSet) (my_pe : ℕ) : List Instr :=
  syncNode (fun c => .atomicAdd 0 1 c) (treeFamily radix A 0 my_pe).1 (treeFamily radix A 0 my_pe).2 my_pe

/-- which of the two -/
inductive SyncAlg where
  | linear
  | tree (radix : ℕ)
deriving DecidableEq, Repr

def syncBody (A : ActiveSet) : SyncAlg → ℕ → List Instr
  | .linear => syncLinear A
  | .tree radix => syncTree radix A

/-- the PEs a PE takes call-ins from -/
def callers (A : ActiveSet) : SyncAlg → ℕ → List ℕ
  | .linear, v => if A.PE_start = v then (List.range (A.PE_size - 1)).map fun i => A.PE_start + (i + 1) * A.PE_stride else []
  | .tree radix, v => (treeFamily radix A 0 v).2

/-- whether a PE is the root -/
def isRoot (A : ActiveSet) : SyncAlg → ℕ → Prop
  | .linear, v => A.PE_start = v
  | .tree radix, v => (treeFamily radix A 0 v).1 = v

instance (A : ActiveSet) (alg : SyncAlg) (v : ℕ) : Decidable (isRoot A alg v) :=
  match alg with
  | .linear => inferInstanceAs (Decidable (A.PE_start = v))
  | .tree radix => inferInstanceAs (Decidable ((treeFamily radix A 0 v).1 = v))

/-- where in its body a PE with these children calls in -/
def upPos (children : List ℕ) : ℕ := if children = [] then 1 else 2

/-! ## Positions -/

section
variable (T : ParentTree) (ack : ℕ → Instr)

/-- the body of a node of T -/
def node (v : ℕ) : List Instr := syncNode ack (T.parent v) (T.children v) v

/-- where v clears its counter -/
def clearPos (v : ℕ) : ℕ := if T.parent v = v then 2 else upPos (T.children v) + 2

/-- the length of the body -/
def len (v : ℕ) : ℕ := clearPos T v + 2 + (T.children v).length

/-- what stands where in the body of v -/
inductive NodeAt (v : ℕ) : ℕ → Instr → Prop
  | enter : NodeAt v 0 .enter
  | callins (h : T.children v ≠ []) : NodeAt v 1 (.waitUntil 0 .EQ (T.children v).length)
  | up (h : T.parent v ≠ v) : NodeAt v (upPos (T.children v)) (.atomicAdd 0 1 (T.parent v))
  | acked (h : T.parent v ≠ v) (hc : T.children v ≠ []) :
    NodeAt v (upPos (T.children v) + 1) (.waitUntil 0 .EQ ((T.children v).length + 1 : ℕ))
  | ackedLeaf (h : T.parent v ≠ v) (hc : T.children v = []) :
    NodeAt v (upPos (T.children v) + 1) (.waitUntil 0 .NE 0)
  | clear : NodeAt v (clearPos T v) (.putScalar 0 0 v)
  | cleared : NodeAt v (clearPos T v + 1) (.waitUntil 0 .EQ 0)
  | ack (j c : ℕ) (h : (T.children v)[j]? = some c) : NodeAt v (clearPos T v + 2 + j) (ack c)

variable {T ack}

theorem node_length {v : ℕ} (h : T.children v = [] → T.parent v ≠ v) : (node T ack v).length = len T v := by
  unfold node syncNode len clearPos upPos
  by_cases hc : T.children v = []
  · simp [hc, h hc]
  · by_cases hp : T.parent v = v
    · simp [hc, hp]; omega
    · simp [hc, hp]; omega

theorem nodeAt_of_node {v i : ℕ} {ins : Instr} (h : T.children v = [] → T.parent v ≠ v)
    (hi : (node T ack v)[i]? = some ins) : NodeAt T ack v i ins := by
  unfold node syncNode at hi
  by_cases hc : T.children v = []
  · have hp := h hc
    have hup : upPos (T.children v) = 1 := by simp [upPos, hc]
    have hcl : clearPos T v = 3 := by simp [clearPos, hp, hup]
    simp only [hc, ne_eq, not_true_eq_false, if_false] at hi
    match i, hi with
    | 0, hi => simp at hi; subst hi; exact .enter
    | 1, hi => simp at hi; subst hi; exact hup ▸ .up hp
    | 2, hi => simp at hi; subst hi; exact (show 2 = upPos (T.children v) + 1 by omega) ▸ .ackedLeaf hp hc
    | 3, hi => simp at hi; subst hi; exact hcl ▸ .clear
    | 4, hi => simp at hi; subst hi; exact (show 4 = clearPos T v + 1 by omega) ▸ .cleared
    | i + 5, hi => simp at hi
  · have hup : upPos (T.children v) = 2 := by simp [upPos, hc]
    by_cases hp : T.parent v = v
    · have hcl : clearPos T v = 2 := by simp [clearPos, hp]
      simp only [hc, ne_eq, not_false_eq_true, if_true, hp] at hi
      match i, hi with
      | 0, hi => simp at hi; subst hi; exact .enter
      | 1, hi => simp at hi; subst hi; exact .callins hc
      | 2, hi => simp at hi; subst hi; exact hcl ▸ .clear
      | 3, hi => simp at hi; subst hi; exact (show 3 = clearPos T v + 1 by omega) ▸ .cleared
      | j + 4, hi =>
        simp only [List.cons_append, List.nil_append, List.getElem?_cons_succ, List.getElem?_map] at hi
        obtain ⟨c, hcj, rfl⟩ := Option.map_eq_some_iff.mp hi
        exact (show j + 4 = clearPos T v + 2 + j by omega) ▸ .ack j c hcj
    · have hcl : clearPos T v = 4 := by simp [clearPos, hp, hup]
      simp only [hc, ne_eq, not_false_eq_true, if_true, hp, if_false] at hi
      match i, hi with
      | 0, hi => simp at hi; subst hi; exact .enter
      | 1, hi => simp at hi; subst hi; exact .callins hc
      | 2, hi => simp at hi; subst hi; exact hup ▸ .up hp
      | 3, hi =>
        simp at hi; subst hi
        have hat : NodeAt T ack v (upPos (T.children v) + 1) _ := .acked hp hc
        rw [hup] at hat
        simpa using hat
      | 4, hi => simp at hi; subst hi; exact hcl ▸ .clear
      | 5, hi => simp at hi; subst hi; exact (show 5 = clearPos T v + 1 by omega) ▸ .cleared
      | j + 6, hi =>
        simp only [List.cons_append, List.nil_append, List.getElem?_cons_succ, List.getElem?_map] at hi
        obtain ⟨c, hcj, rfl⟩ := Option.map_eq_some_iff.mp hi
        exact (show j + 6 = clearPos T v + 2 + j by omega) ▸ .ack j c hcj

end

/-! ## The protocol on a tree -/

/-- the tree has an edge, its nodes are the members, and an ack adds 1 or puts 1 to a leaf -/
structure Proto (T : ParentTree) (ack : ℕ → Instr) (ms : List ℕ) : Prop where
  mem : ∀ v, v ∈ ms ↔ v ∈ T.nodes
  edge : T.children T.root ≠ []
  ack : ∀ v ∈ T.nodes, ∀ c ∈ T.children v,
    ack c = .atomicAdd 0 1 c ∨ (ack c = .putScalar 0 1 c ∧ T.children c = [])

/-- the invariant, with the counts of delivered call-ins u, clears z and acks a -/
structure Inv (T : ParentTree) (s : St Unit) (u z a : ℕ → ℕ) : Prop where
  ups : ∀ v ∈ T.nodes, v ≠ T.root → ∀ k, s.done v (k * len T v + upPos (T.children v)) 0 = true ↔ k < u v
  clears : ∀ v ∈ T.nodes, ∀ k, s.done v (k * len T v + clearPos T v) 0 = true ↔ k < z v
  acks : ∀ v ∈ T.nodes, ∀ j c, (T.children v)[j]? = some c →
    ∀ k, s.done v (k * len T v + (clearPos T v + 2 + j)) 0 = true ↔ k < a c
  /-- who is past the waits of round k has seen the call-ins, the ack, the clear of round k -/
  callins : ∀ v ∈ T.nodes, ∀ c ∈ T.children v, ∀ k, k * len T v + 1 < s.pc v → k < u c
  acked : ∀ v ∈ T.nodes, v ≠ T.root → ∀ k, k * len T v + (upPos (T.children v) + 1) < s.pc v → k < a v
  cleared : ∀ v ∈ T.nodes, ∀ k, k * len T v + (clearPos T v + 1) < s.pc v → k < z v
  value : ∀ v ∈ T.nodes,
    s.cell v 0 = ((T.children v).map fun c => (u c : ℤ) - z v).sum + if v = T.root then 0 else (a v : ℤ) - z v

section
variable {T : ParentTree} {ack : ℕ → Instr} {ms : List ℕ} {s : St Unit} {u z a : ℕ → ℕ}

theorem Proto.leaf (P : Proto T ack ms) {v : ℕ} (hv : v ∈ T.nodes) (hc : T.children v = []) : T.parent v ≠ v := by
  intro hp
  rw [(T.parent_eq_self hv).mp hp] at hc
  exact P.edge hc

/-- the positions of a node other than the root -/
theorem clearPos_eq {v : ℕ} (hv : v ∈ T.nodes) (h : v ≠ T.root) : clearPos T v = upPos (T.children v) + 2 := by
  simp [clearPos, T.parent_ne hv h]

theorem clearPos_root : clearPos T T.root = 2 := by simp [clearPos, T.parent_root]

theorem upPos_bounds (l : List ℕ) : 1 ≤ upPos l ∧ upPos l ≤ 2 := by
  unfold upPos
  split_ifs <;> omega

theorem clearPos_bounds {v : ℕ} (hv : v ∈ T.nodes) : 2 ≤ clearPos T v ∧ clearPos T v + 2 ≤ len T v := by
  have hu := upPos_bounds (T.children v)
  refine ⟨?_, by simp [len]⟩
  by_cases h : v = T.root
  · rw [h, clearPos_root]
  · rw [clearPos_eq hv h]
    omega

/-- what a member executes is its body at the position in its round -/
theorem Proto.prog (P : Proto T ack ms) {v t : ℕ} {ins : Instr} (h : (calls ms (node T ack)).prog v t = some ins) :
    v ∈ T.nodes ∧ NodeAt T ack v (t % len T v) ins := by
  simp only [calls] at h
  split_ifs at h with hv
  have hv' := (P.mem v).mp hv
  rw [node_length (P.leaf hv')] at h
  exact ⟨hv', nodeAt_of_node (P.leaf hv') h⟩

/-- **Along an edge the counts stay within one round of each other.** -/
structure Edge (u z a : ℕ → ℕ) (v c : ℕ) : Prop where
  zu : z v ≤ u c
  uz : u c ≤ z c + 1
  za : z c ≤ a c
  az : a c ≤ z v

theorem Inv.edge (h : Inv T s u z a) (hh : (calls ms (node T ack)).Hist s) {v c : ℕ} (hv : v ∈ T.nodes)
    (hc : c ∈ T.children v) : Edge u z a v c := by
  have hcm := T.child_mem hv hc
  have hcr := T.child_ne_root hv hc
  have hposv := clearPos_bounds hv
  have hposc := clearPos_bounds hcm
  have hcl := clearPos_eq hcm hcr
  have hup := upPos_bounds (T.children c)
  obtain ⟨j, hj⟩ := List.getElem?_of_mem hc
  refine ⟨?_, ?_, ?_, ?_⟩
  · by_contra hlt
    have hk : u c < z v := by omega
    have hpc := (hh.doneIssued _ _ _ ((h.clears v hv (u c)).mpr hk)).1
    have := h.callins v hv c hc (u c) (by omega)
    omega
  · by_contra hlt
    have hk : z c + 1 < u c := by omega
    have hpc := (hh.doneIssued _ _ _ ((h.ups c hcm hcr (z c + 1)).mpr hk)).1
    have := h.cleared c hcm (z c) (round_lt (k := z c + 1) (by omega) hpc (by omega))
    omega
  · by_contra hlt
    have hk : a c < z c := by omega
    have hpc := (hh.doneIssued _ _ _ ((h.clears c hcm (a c)).mpr hk)).1
    have := h.acked c hcm hcr (a c) (by omega)
    omega
  · by_contra hlt
    have hk : z v < a c := by omega
    have hpc := (hh.doneIssued _ _ _ ((h.acks v hv j c hj (z v)).mpr hk)).1
    have := h.cleared v hv (z v) (by omega)
    omega

/-- the edge above a node -/
theorem Inv.edgeUp (h : Inv T s u z a) (hh : (calls ms (node T ack)).Hist s) {v : ℕ} (hv : v ∈ T.nodes)
    (hr : v ≠ T.root) : Edge u z a (T.parent v) v :=
  h.edge hh (T.parent_mem v hv) (T.mem_children_parent hv hr)

/-- the round a node is in, as far as its clears go -/
theorem Inv.round (h : Inv T s u z a) (hh : (calls ms (node T ack)).Hist s) {v k i : ℕ} (hv : v ∈ T.nodes)
    (hpc : s.pc v = k * len T v + i) (hi : i ≤ clearPos T v) : z v = k := by
  have hpos := clearPos_bounds hv
  refine le_antisymm ?_ ?_
  · by_contra hlt
    have := (hh.doneIssued _ _ _ ((h.clears v hv k).mpr (by omega))).1
    omega
  · rcases Nat.eq_zero_or_pos k with rfl | hk
    · exact Nat.zero_le _
    · obtain ⟨k, rfl⟩ : ∃ k', k = k' + 1 := ⟨k - 1, by omega⟩
      rw [Nat.add_mul, Nat.one_mul] at hpc
      have := h.cleared v hv k (by omega)
      omega

/-! ## Sums over the children -/

theorem sum_le_length (l : List ℕ) (f : ℕ → ℤ) (h : ∀ c ∈ l, f c ≤ 1) : (l.map f).sum ≤ l.length := by
  induction l with
  | nil => simp
  | cons x l ih =>
    have h1 := h x List.mem_cons_self
    have h2 := ih fun c hc => h c (List.mem_cons_of_mem x hc)
    simp only [List.map_cons, List.sum_cons, List.length_cons, Nat.cast_add, Nat.cast_one]
    omega

theorem eq_one_of_sum_eq (l : List ℕ) (f : ℕ → ℤ) (h : ∀ c ∈ l, f c ≤ 1) (hs : (l.map f).sum = l.length) :
    ∀ c ∈ l, f c = 1 := by
  induction l with
  | nil => simp
  | cons x l ih =>
    have h1 := h x List.mem_cons_self
    have htail : ∀ c ∈ l, f c ≤ 1 := fun c hc => h c (List.mem_cons_of_mem x hc)
    have h2 := sum_le_length l f htail
    simp only [List.map_cons, List.sum_cons, List.length_cons, Nat.cast_add, Nat.cast_one] at hs
    intro c hc
    rcases List.mem_cons.mp hc with rfl | hc
    · omega
    · exact ih htail (by omega) c hc

theorem sum_nonneg_of (l : List ℕ) (f : ℕ → ℤ) (h : ∀ c ∈ l, 0 ≤ f c) : 0 ≤ (l.map f).sum :=
  List.sum_nonneg (by simpa using h)

/-- one more call-in of x -/
theorem sum_update (l : List ℕ) (hl : l.Nodup) (u : ℕ → ℕ) (x : ℕ) (w : ℤ) :
    (l.map fun c => ((Function.update u x (u x + 1) c : ℕ) : ℤ) - w).sum =
      (l.map fun c => (u c : ℤ) - w).sum + if x ∈ l then 1 else 0 := by
  induction l with
  | nil => simp
  | cons y l ih =>
    obtain ⟨hy, hl⟩ := List.nodup_cons.mp hl
    simp only [List.map_cons, List.sum_cons, List.mem_cons]
    rw [ih hl]
    by_cases hxy : x = y
    · subst hxy
      simp [hy]
      ring
    · rw [Function.update_of_ne (Ne.symm hxy)]
      simp [hxy]
      ring

end

/-! ## Steps -/

section
variable {T : ParentTree} {ack : ℕ → Instr} {ms : List ℕ} {s : St Unit} {u z a : ℕ → ℕ}

/-- no instruction of a node touches the memory of the node by itself -/
theorem Proto.effect (P : Proto T ack ms) {v i : ℕ} {ins : Instr} (hv : v ∈ T.nodes) (hat : NodeAt T ack v i ins)
    (s : St Unit) (r : ℕ) : (calls ms (node T ack)).effect s r ins = s := by
  cases hat with
  | ack j c hj =>
    rcases P.ack v hv c (List.mem_of_getElem? hj) with h | ⟨h, -⟩
    · rw [h]; rfl
    · rw [h]; rfl
  | _ => rfl

/-- a node past its wait for call-ins has seen them all -/
theorem Inv.pass_callins (h : Inv T s u z a) (hh : (calls ms (node T ack)).Hist s) {v k : ℕ} (hv : v ∈ T.nodes)
    (hpc : s.pc v = k * len T v + 1) (he : s.cell v 0 = (T.children v).length) : ∀ c ∈ T.children v, k < u c := by
  have hpos := clearPos_bounds hv
  have hz := h.round hh hv hpc (by omega)
  -- the ack of this round cannot be there, the node has not even called in
  have hack : (if v = T.root then 0 else (a v : ℤ) - z v) = 0 := by
    split_ifs with hr
    · rfl
    · have hup := upPos_bounds (T.children v)
      have he := h.edgeUp hh hv hr
      have hu : u v ≤ k := by
        by_contra hlt
        have := (hh.doneIssued _ _ _ ((h.ups v hv hr k).mpr (by omega))).1
        omega
      have := he.za
      have := he.az
      have := he.zu
      omega
  have hval := h.value v hv
  rw [hack, add_zero, he] at hval
  intro c hc
  have hone := eq_one_of_sum_eq _ (fun c => (u c : ℤ) - z v)
    (fun c hc => by have e := h.edge hh hv hc; have := e.uz; have := e.za; have := e.az; omega) hval.symm c hc
  omega

/-- a node past its wait for the ack has it -/
theorem Inv.pass_acked (h : Inv T s u z a) (hh : (calls ms (node T ack)).Hist s) {v k : ℕ} (hv : v ∈ T.nodes)
    (hr : v ≠ T.root) (hpc : s.pc v = k * len T v + (upPos (T.children v) + 1))
    (he : if T.children v = [] then s.cell v 0 ≠ 0 else s.cell v 0 = ((T.children v).length + 1 : ℕ)) : k < a v := by
  have hcl := clearPos_eq hv hr
  have hz := h.round hh hv hpc (by omega)
  have hza := (h.edgeUp hh hv hr).za
  have hval := h.value v hv
  rw [if_neg hr] at hval
  split_ifs at he with hc
  · rw [hc] at hval
    simp only [List.map_nil, List.sum_nil, zero_add] at hval
    omega
  · have hsum := sum_le_length (T.children v) (fun c => (u c : ℤ) - z v)
      fun c hc => by have e := h.edge hh hv hc; have := e.uz; have := e.za; have := e.az; omega
    rw [hval] at he
    push_cast at he
    omega

/-- a node past its wait for zero has been cleared -/
theorem Inv.pass_cleared (P : Proto T ack ms) (h : Inv T s u z a) (hh : (calls ms (node T ack)).Hist s) {v k : ℕ}
    (hv : v ∈ T.nodes) (hpc : s.pc v = k * len T v + (clearPos T v + 1)) (he : s.cell v 0 = 0) : k < z v := by
  have hpos := clearPos_bounds hv
  by_contra hlt
  have hval := h.value v hv
  rw [he] at hval
  have hnn : ∀ c ∈ T.children v, 0 ≤ (u c : ℤ) - z v := fun c hc => by
    have := (h.edge hh hv hc).zu
    omega
  have hsum := sum_nonneg_of _ _ hnn
  -- what the node waited for before it cleared is still counted
  by_cases hr : v = T.root
  · rw [if_pos hr, add_zero] at hval
    obtain ⟨c, hc⟩ := List.exists_mem_of_ne_nil _ (hr ▸ P.edge : T.children v ≠ [])
    have hcall := h.callins v hv c hc k (by omega)
    have hle := List.single_le_sum (l := (T.children v).map fun c => (u c : ℤ) - z v)
      (by simpa using hnn) _ (List.mem_map_of_mem hc)
    omega
  · rw [if_neg hr] at hval
    have hcl := clearPos_eq hv hr
    have hack := h.acked v hv hr k (by omega)
    omega

theorem Inv.exec (P : Proto T ack ms) (h : Inv T s u z a) (hh : (calls ms (node T ack)).Hist s) {r : ℕ} {ins : Instr}
    (hp : (calls ms (node T ack)).prog r (s.pc r) = some ins) (he : (calls ms (node T ack)).Enabled s r ins) :
    Inv T (advance ((calls ms (node T ack)).effect s r ins) r) u z a := by
  obtain ⟨hrm, hat⟩ := P.prog hp
  rw [P.effect hrm hat]
  have hposr := clearPos_bounds hrm
  have hupr := upPos_bounds (T.children r)
  generalize hi : s.pc r % len T r = i at hat
  refine ⟨h.ups, h.clears, h.acks, ?_, ?_, ?_, h.value⟩
  · intro v hv c hc k hk
    by_cases hvr : v = r
    · subst hvr
      rw [advance_pc_self] at hk
      rcases passed_cases (by omega) hk with hk | ⟨hpc, hm⟩
      · exact h.callins v hv c hc k hk
      · have hne : T.children v ≠ [] := List.ne_nil_of_mem hc
        have h2 : upPos (T.children v) = 2 := by simp [upPos, hne]
        cases hat with
        | callins _ => exact h.pass_callins hh hv hpc he c hc
        | _ => omega
    · rw [advance_pc_other _ hvr] at hk
      exact h.callins v hv c hc k hk
  · intro v hv hr k hk
    by_cases hvr : v = r
    · subst hvr
      have hcl := clearPos_eq hv hr
      rw [advance_pc_self] at hk
      rcases passed_cases (by omega) hk with hk | ⟨hpc, hm⟩
      · exact h.acked v hv hr k hk
      · refine h.pass_acked hh hv hr hpc ?_
        cases hat with
        | callins hne =>
          have : upPos (T.children v) = 2 := by simp [upPos, hne]
          omega
        | acked _ hne =>
          rw [if_neg hne]
          exact he
        | ackedLeaf _ hnil =>
          rw [if_pos hnil]
          exact he
        | _ => omega
    · rw [advance_pc_other _ hvr] at hk
      exact h.acked v hv hr k hk
  · intro v hv k hk
    by_cases hvr : v = r
    · subst hvr
      rw [advance_pc_self] at hk
      rcases passed_cases (by omega) hk with hk | ⟨hpc, hm⟩
      · exact h.cleared v hv k hk
      · refine h.pass_cleared P hh hv hpc ?_
        have hcl : v ≠ T.root → clearPos T v = upPos (T.children v) + 2 := clearPos_eq hv
        cases hat with
        | cleared => exact he
        | acked hne _ =>
          have := hcl fun heq => hne ((T.parent_eq_self hv).mpr heq)
          omega
        | ackedLeaf hne _ =>
          have := hcl fun heq => hne ((T.parent_eq_self hv).mpr heq)
          omega
        | up hne =>
          have := hcl fun heq => hne ((T.parent_eq_self hv).mpr heq)
          omega
        | _ => omega
    · rw [advance_pc_other _ hvr] at hk
      exact h.cleared v hv k hk

/-- the k-th call-in of v arrives at its parent -/
theorem Inv.deliver_up (h : Inv T s u z a) (hh : (calls ms (node T ack)).Hist s) {v k : ℕ} (hv : v ∈ T.nodes)
    (hr : v ≠ T.root) (hpc : k * len T v + upPos (T.children v) < s.pc v)
    (hnd : s.done v (k * len T v + upPos (T.children v)) 0 = false) :
    Inv T (mark { s with cell := setCell s.cell (T.parent v) 0 (s.cell (T.parent v) 0 + 1) } v
      (k * len T v + upPos (T.children v)) 0) (Function.update u v (u v + 1)) z a := by
  have hpos := clearPos_bounds hv
  have hcl := clearPos_eq hv hr
  have hup := upPos_bounds (T.children v)
  have e := h.edgeUp hh hv hr
  have hk : k = u v := by
    have h1 : ¬ k < u v := fun hlt => by simp [(h.ups v hv hr k).mpr hlt] at hnd
    have h2 : k ≤ u v := by
      rcases Nat.eq_zero_or_pos k with rfl | hpos'
      · exact Nat.zero_le _
      · have := h.cleared v hv (k - 1) (round_lt hpos' hpc (by omega))
        have := e.za
        have := e.az
        have := e.zu
        omega
    omega
  have hmono : ∀ c, u c ≤ Function.update u v (u v + 1) c := by
    intro c
    by_cases hc : c = v
    · subst hc; simp
    · simp [hc]
  refine ⟨?_, ?_, ?_, ?_, h.acked, h.cleared, ?_⟩
  · intro w hw hwr k'
    by_cases hwv : w = v
    · subst hwv
      rw [Function.update_self]
      exact mark_done_next (by omega) (h.ups w hw hwr) hk k'
    · rw [Function.update_of_ne hwv]
      exact (mark_done_other hwv).trans (h.ups w hw hwr k')
  · intro w hw k'
    by_cases hwv : w = v
    · subst hwv
      exact (mark_done_ne (by omega) (by omega) (fun _ => by omega)).trans (h.clears w hw k')
    · exact (mark_done_other hwv).trans (h.clears w hw k')
  · intro w hw j c hj k'
    have hjlt := (List.getElem?_eq_some_iff.mp hj).1
    by_cases hwv : w = v
    · subst hwv
      exact (mark_done_ne (by omega) (by simp only [len]; omega) (fun _ => by omega)).trans (h.acks w hw j c hj k')
    · exact (mark_done_other hwv).trans (h.acks w hw j c hj k')
  · intro w hw c hc k' hk'
    exact lt_of_lt_of_le (h.callins w hw c hc k' hk') (hmono c)
  · intro w hw
    rw [sum_update _ (T.nodup w hw)]
    have hval := h.value w hw
    simp only [mark_cell, setCell_apply, and_true]
    by_cases hwp : w = T.parent v
    · subst hwp
      rw [if_pos rfl, if_pos (T.mem_children_parent hv hr), hval]
      ring
    · have hnot : v ∉ T.children w := fun hmem => hwp (T.parent_child hw hmem).symm
      rw [if_neg hwp, if_neg hnot, hval]
      ring

/-- the k-th clear of v arrives -/
theorem Inv.deliver_clear (h : Inv T s u z a) (hh : (calls ms (node T ack)).Hist s) {v k : ℕ}
    (hv : v ∈ T.nodes) (hpc : k * len T v + clearPos T v < s.pc v)
    (hnd : s.done v (k * len T v + clearPos T v) 0 = false) :
    Inv T (mark { s with cell := setCell s.cell v 0 0 } v (k * len T v + clearPos T v) 0) u
      (Function.update z v (z v + 1)) a := by
  have hpos := clearPos_bounds hv
  have hk : k = z v := by
    have h1 : ¬ k < z v := fun hlt => by simp [(h.clears v hv k).mpr hlt] at hnd
    rcases Nat.eq_zero_or_pos k with rfl | hpos'
    · omega
    · have := h.cleared v hv (k - 1) (round_lt hpos' hpc (by omega))
      omega
  have hmono : ∀ c, z c ≤ Function.update z v (z v + 1) c := by
    intro c
    by_cases hc : c = v
    · subst hc; simp
    · simp [hc]
  refine ⟨?_, ?_, ?_, h.callins, h.acked, ?_, ?_⟩
  · intro w hw hwr k'
    by_cases hwv : w = v
    · subst hwv
      have hcl := clearPos_eq hw hwr
      exact (mark_done_ne (by omega) (by omega) (fun _ => by omega)).trans (h.ups w hw hwr k')
    · exact (mark_done_other hwv).trans (h.ups w hw hwr k')
  · intro w hw k'
    by_cases hwv : w = v
    · subst hwv
      rw [Function.update_self]
      exact mark_done_next (by omega) (h.clears w hw) hk k'
    · rw [Function.update_of_ne hwv]
      exact (mark_done_other hwv).trans (h.clears w hw k')
  · intro w hw j c hj k'
    have hjlt := (List.getElem?_eq_some_iff.mp hj).1
    by_cases hwv : w = v
    · subst hwv
      exact (mark_done_ne (by omega) (by simp only [len]; omega) (fun _ => by omega)).trans (h.acks w hw j c hj k')
    · exact (mark_done_other hwv).trans (h.acks w hw j c hj k')
  · intro w hw k' hk'
    exact lt_of_lt_of_le (h.cleared w hw k' hk') (hmono w)
  · intro w hw
    simp only [mark_cell, setCell_apply, and_true]
    by_cases hwv : w = v
    · -- everything counted belongs to the round that ends
      subst hwv
      rw [if_pos rfl, Function.update_self]
      have hsum : ((T.children w).map fun c => (u c : ℤ) - (z w + 1 : ℕ)) = (T.children w).map fun _ => (0 : ℤ) := by
        refine List.map_congr_left fun c hc => ?_
        have e := h.edge hh hw hc
        have := h.callins w hw c hc k (by omega)
        have := e.uz
        have := e.za
        have := e.az
        push_cast
        omega
      have hself : (if w = T.root then 0 else (a w : ℤ) - (z w + 1 : ℕ)) = 0 := by
        split_ifs with hr
        · rfl
        · have e := h.edgeUp hh hw hr
          have hcl := clearPos_eq hw hr
          have := h.acked w hw hr k (by omega)
          have := e.az
          have := e.zu
          have := e.uz
          push_cast
          omega
      rw [hsum, hself]
      simp
    · rw [if_neg hwv, Function.update_of_ne hwv]
      exact h.value w hw

/-- the k-th ack of v arrives at its child c -/
theorem Inv.deliver_ack (P : Proto T ack ms) (h : Inv T s u z a) (hh : (calls ms (node T ack)).Hist s) {v k j c : ℕ}
    (hv : v ∈ T.nodes) (hj : (T.children v)[j]? = some c) (hpc : k * len T v + (clearPos T v + 2 + j) < s.pc v)
    (hnd : s.done v (k * len T v + (clearPos T v + 2 + j)) 0 = false) {i' : ℕ} :
    Inv T (mark ((calls ms (node T ack)).arrive s v i' 0 (ack c)) v (k * len T v + (clearPos T v + 2 + j)) 0) u z
      (Function.update a c (a c + 1)) := by
  have hpos := clearPos_bounds hv
  have hc := List.mem_of_getElem? hj
  have hcm := T.child_mem hv hc
  have hcr := T.child_ne_root hv hc
  have hjlt := (List.getElem?_eq_some_iff.mp hj).1
  have e := h.edge hh hv hc
  have hk : k = a c := by
    have h1 : ¬ k < a c := fun hlt => by simp [(h.acks v hv j c hj k).mpr hlt] at hnd
    have := h.cleared v hv k (by omega)
    have := e.zu
    have := e.uz
    have := e.za
    omega
  -- an add and a put of 1 come to the same: the child has not been acked in this round, and has no children of its own
  -- where the ack is a put
  have hcell : ((calls ms (node T ack)).arrive s v i' 0 (ack c)).cell = setCell s.cell c 0 (s.cell c 0 + 1) := by
    rcases P.ack v hv c hc with hack | ⟨hack, hleaf⟩
    · rw [hack]; rfl
    · have hval := h.value c hcm
      rw [hleaf, if_neg hcr] at hval
      have hz : (z c : ℤ) = a c := by
        have := h.cleared v hv k (by omega)
        have := e.zu
        have := e.uz
        have := e.za
        omega
      rw [hack]
      simp only [arrive, hval, hz]
      simp
  have hmono : ∀ w, a w ≤ Function.update a c (a c + 1) w := by
    intro w
    by_cases hw : w = c
    · subst hw; simp
    · simp [hw]
  refine ⟨?_, ?_, ?_, ?_, ?_, ?_, ?_⟩
  · intro w hw hwr k'
    refine Iff.trans ?_ (h.ups w hw hwr k')
    by_cases hwv : w = v
    · subst hwv
      have hcl := clearPos_eq hw hwr
      rw [mark_done_ne (by simp only [len]; omega) (by omega) (fun _ => by omega), arrive_done]
    · rw [mark_done_other hwv, arrive_done]
  · intro w hw k'
    refine Iff.trans ?_ (h.clears w hw k')
    by_cases hwv : w = v
    · subst hwv
      rw [mark_done_ne (by simp only [len]; omega) (by omega) (fun _ => by omega), arrive_done]
    · rw [mark_done_other hwv, arrive_done]
  · intro w hw j' c' hj' k'
    by_cases hcc : c' = c
    · -- the same child is at the same place of the same parent
      subst hcc
      have hwv : w = v := by rw [← T.parent_child hw (List.mem_of_getElem? hj'), T.parent_child hv hc]
      subst hwv
      have hjj : j' = j := (List.getElem?_inj (List.getElem?_eq_some_iff.mp hj').1 (T.nodup w hw)).mp (hj'.trans hj.symm)
      subst hjj
      rw [Function.update_self]
      refine mark_done_next (by simp only [len]; omega) ?_ hk k'
      intro k''
      rw [arrive_done]
      exact h.acks w hw j' c' hj' k''
    · rw [Function.update_of_ne hcc]
      refine Iff.trans ?_ (h.acks w hw j' c' hj' k')
      have hjlt' := (List.getElem?_eq_some_iff.mp hj').1
      by_cases hwv : w = v
      · subst hwv
        have hne : j' ≠ j := fun heq => hcc (by subst heq; rw [hj] at hj'; exact (Option.some.inj hj').symm)
        rw [mark_done_ne (by simp only [len]; omega) (by simp only [len]; omega) (fun _ => by omega), arrive_done]
      · rw [mark_done_other hwv, arrive_done]
  · intro w hw c' hc' k' hk'
    simp only [mark_pc, arrive_pc] at hk'
    exact h.callins w hw c' hc' k' hk'
  · intro w hw hr k' hk'
    simp only [mark_pc, arrive_pc] at hk'
    exact lt_of_lt_of_le (h.acked w hw hr k' hk') (hmono w)
  · intro w hw k' hk'
    simp only [mark_pc, arrive_pc] at hk'
    exact h.cleared w hw k' hk'
  · intro w hw
    have hval := h.value w hw
    rw [mark_cell, hcell, setCell_apply]
    simp only [and_true]
    by_cases hwc : w = c
    · subst hwc
      rw [if_pos rfl, hval, if_neg hcr, if_neg hcr, Function.update_self]
      push_cast
      ring
    · rw [if_neg hwc, Function.update_of_ne hwc]
      exact hval

/-- a node sends single values and reads no buffers -/
theorem Proto.parts (P : Proto T ack ms) {v i : ℕ} {ins : Instr} (hv : v ∈ T.nodes) (hat : NodeAt T ack v i ins) :
    ins.reads = 0 ∧ ins.parts ≤ 1 := by
  cases hat with
  | ack j c hj =>
    rcases P.ack v hv c (List.mem_of_getElem? hj) with h | ⟨h, -⟩
    · rw [h]; exact ⟨rfl, le_refl _⟩
    · rw [h]; exact ⟨rfl, le_refl _⟩
  | _ => exact ⟨rfl, by simp [Instr.parts]⟩

theorem Inv.deliver (P : Proto T ack ms) (h : Inv T s u z a) (hh : (calls ms (node T ack)).Hist s) {r i j : ℕ}
    {ins : Instr} (hp : (calls ms (node T ack)).prog r i = some ins)
    (hd : (calls ms (node T ack)).Deliverable s r i j) :
    ∃ u' z' a', Inv T (mark ((calls ms (node T ack)).arrive s r i j ins) r i j) u' z' a' := by
  obtain ⟨hr, hat⟩ := P.prog hp
  obtain ⟨hpc, hj, hnd, -, -⟩ := hd
  rw [partsAt_eq _ hp] at hj
  have hj0 : j = 0 := by have := (P.parts hr hat).2; omega
  subst hj0
  -- the position as a round and a position in the body
  have hi : i = i / len T r * len T r + i % len T r := by rw [Nat.mul_comm]; exact (Nat.div_add_mod i _).symm
  generalize hx : i % len T r = x at hat hi
  generalize i / len T r = k at hi
  subst hi
  cases hat with
  | up hne =>
    have hroot : r ≠ T.root := fun heq => hne ((T.parent_eq_self hr).mpr heq)
    exact ⟨_, _, _, h.deliver_up hh hr hroot hpc hnd⟩
  | clear => exact ⟨_, _, _, h.deliver_clear hh hr hpc hnd⟩
  | ack j c hc => exact ⟨_, _, _, h.deliver_ack P hh hr hc hpc hnd⟩
  | _ => exact absurd hj (by simp [Instr.parts])

/-- the invariant is kept by every kind of step -/
theorem Proto.keeps (P : Proto T ack ms) : (calls ms (node T ack)).Keeps fun s => ∃ u z a, Inv T s u z a where
  exec s r ins hh hi hp he := by
    obtain ⟨u, z, a, h⟩ := hi
    exact ⟨u, z, a, h.exec P hh hp he⟩
  capture s r i j ins v hh hi hp hpc hj hc hv := by
    obtain ⟨hr, hat⟩ := P.prog hp
    have := (P.parts hr hat).1
    omega
  deliver s r i j ins hh hi hp hd := by
    obtain ⟨u, z, a, h⟩ := hi
    exact h.deliver P hh hp hd

theorem inv_init : Inv T (init (fun _ _ => 0) fun _ _ => ()) (fun _ => 0) (fun _ => 0) fun _ => 0 := by
  constructor <;> simp [init]

/-- the invariant of every run of the protocol -/
theorem Proto.run_inv (P : Proto T ack ms) (ops : List Op) :
    (calls ms (node T ack)).Hist ((calls ms (node T ack)).run (init (fun _ _ => 0) fun _ _ => ()) ops) ∧
      ∃ u z a, Inv T ((calls ms (node T ack)).run (init (fun _ _ => 0) fun _ _ => ()) ops) u z a :=
  P.keeps.run (hist_init _ _ _) ⟨_, _, _, inv_init⟩ ops

/-! ## What follows from the invariant -/

/-- who has been cleared in round k has an ancestor line cleared in round k, up to the root -/
theorem Inv.root_cleared (h : Inv T s u z a) (hh : (calls ms (node T ack)).Hist s) (k : ℕ) :
    ∀ v ∈ T.nodes, k < z v → k < z T.root := by
  refine T.down (P := fun v => k < z v → k < z T.root) id ?_
  intro v hv hr ih hk
  have e := h.edgeUp hh hv hr
  have := e.za
  have := e.az
  exact ih (by omega)

/-- when the root has been cleared in round k everybody has called in for round k -/
theorem Inv.all_called_in (h : Inv T s u z a) (hh : (calls ms (node T ack)).Hist s) {k : ℕ} (hk : k < z T.root) :
    ∀ v ∈ T.nodes, v ≠ T.root → k < u v := by
  refine T.down (P := fun v => v ≠ T.root → k < u v) (fun hne => absurd rfl hne) ?_
  intro v hv hr ih _
  have hp := T.parent_mem v hv
  have hc := T.mem_children_parent hv hr
  by_cases hpr : T.parent v = T.root
  · have := (h.edgeUp hh hv hr).zu
    rw [hpr] at this
    omega
  · -- the parent called in only after the call-ins of its children
    have hup := (hh.doneIssued _ _ _ ((h.ups _ hp hpr k).mpr (ih hpr))).1
    have hne : T.children (T.parent v) ≠ [] := List.ne_nil_of_mem hc
    have h2 : upPos (T.children (T.parent v)) = 2 := by simp [upPos, hne]
    exact h.callins _ hp v hc k (by omega)

/-- **Barrier.** Nobody is through round k before everybody has entered it. -/
theorem Inv.barrier (h : Inv T s u z a) (hh : (calls ms (node T ack)).Hist s) {p q k : ℕ} (hp : p ∈ T.nodes)
    (hq : q ∈ T.nodes) (hret : (k + 1) * len T p ≤ s.pc p) : k * len T q < s.pc q := by
  have hposp := clearPos_bounds hp
  have hz : k < z T.root := by
    refine h.root_cleared hh k p hp ?_
    rw [Nat.add_mul, Nat.one_mul] at hret
    exact h.cleared p hp k (by
      have : clearPos T p + 2 ≤ len T p := hposp.2
      rcases Nat.lt_or_ge (k * len T p + (clearPos T p + 1)) (s.pc p) with hlt | hge
      · exact hlt
      · omega)
  by_cases hr : q = T.root
  · subst hr
    have := (hh.doneIssued _ _ _ ((h.clears _ hq k).mpr hz)).1
    omega
  · have := (hh.doneIssued _ _ _ ((h.ups q hq hr k).mpr (h.all_called_in hh hz q hq hr))).1
    omega

/-- the value a node waits for before it clears -/
def waited (T : ParentTree) (v : ℕ) : ℕ := (T.children v).length + if T.parent v = v then 0 else 1

/-- no counter ever exceeds what its node waits for before it clears -/
theorem Inv.le_waited (h : Inv T s u z a) (hh : (calls ms (node T ack)).Hist s) {v : ℕ} (hv : v ∈ T.nodes) :
    s.cell v 0 ≤ waited T v := by
  have hsum := sum_le_length (T.children v) (fun c => (u c : ℤ) - z v)
    fun c hc => by have e := h.edge hh hv hc; have := e.uz; have := e.za; have := e.az; omega
  rw [h.value v hv, waited]
  simp only [T.parent_eq_self hv]
  split_ifs with hr
  · push_cast; omega
  · have e := h.edgeUp hh hv hr
    have := e.uz
    have := e.az
    have := e.zu
    push_cast
    omega

/-- before a node has called in, its counter is at most the number of its children -/
theorem Inv.le_children (h : Inv T s u z a) (hh : (calls ms (node T ack)).Hist s) {v k : ℕ} (hv : v ∈ T.nodes)
    (hpc : s.pc v = k * len T v + 1) : s.cell v 0 ≤ (T.children v).length := by
  have hpos := clearPos_bounds hv
  have hz := h.round hh hv hpc (by omega)
  have hsum := sum_le_length (T.children v) (fun c => (u c : ℤ) - z v)
    fun c hc => by have e := h.edge hh hv hc; have := e.uz; have := e.za; have := e.az; omega
  rw [h.value v hv]
  split_ifs with hr
  · omega
  · have hup := upPos_bounds (T.children v)
    have e := h.edgeUp hh hv hr
    have hu : u v ≤ k := by
      by_contra hlt
      have := (hh.doneIssued _ _ _ ((h.ups v hv hr k).mpr (by omega))).1
      omega
    have := e.az
    have := e.zu
    omega

/-- while its clear is in flight a counter holds exactly what its node waited for -/
theorem Inv.eq_waited (h : Inv T s u z a) (hh : (calls ms (node T ack)).Hist s) {v k : ℕ} (hv : v ∈ T.nodes)
    (hpc : k * len T v + clearPos T v < s.pc v) (hnd : s.done v (k * len T v + clearPos T v) 0 = false) :
    s.cell v 0 = waited T v := by
  have hpos := clearPos_bounds hv
  have hz : z v ≤ k := by
    by_contra hlt
    simp [(h.clears v hv k).mpr (by omega)] at hnd
  have hsum : ((T.children v).map fun c => (u c : ℤ) - z v) = (T.children v).map fun _ => (1 : ℤ) := by
    refine List.map_congr_left fun c hc => ?_
    have e := h.edge hh hv hc
    have := h.callins v hv c hc k (by omega)
    have := e.uz
    have := e.za
    have := e.az
    omega
  have hlen : ((T.children v).map fun _ => (1 : ℤ)).sum = (T.children v).length := by simp
  rw [h.value v hv, hsum, hlen, waited]
  simp only [T.parent_eq_self hv]
  split_ifs with hr
  · push_cast; omega
  · have e := h.edgeUp hh hv hr
    have hcl := clearPos_eq hv hr
    have := h.acked v hv hr k (by omega)
    have := e.az
    have := e.zu
    have := e.uz
    push_cast
    omega

/-- a node waiting for zero has its clear still in flight or sees zero -/
theorem Inv.zero_or_clearing (h : Inv T s u z a) (hh : (calls ms (node T ack)).Hist s) {v k : ℕ} (hv : v ∈ T.nodes)
    (hpc : s.pc v = k * len T v + (clearPos T v + 1)) :
    s.done v (k * len T v + clearPos T v) 0 = false ∨ s.cell v 0 = 0 := by
  have hpos := clearPos_bounds hv
  cases hd : s.done v (k * len T v + clearPos T v) 0 with
  | false => exact Or.inl rfl
  | true =>
    right
    have hz : k < z v := (h.clears v hv k).mp hd
    -- the node has acked nobody in this round, so nobody has called in for the next
    have hsum : ((T.children v).map fun c => (u c : ℤ) - z v) = (T.children v).map fun _ => (0 : ℤ) := by
      refine List.map_congr_left fun c hc => ?_
      obtain ⟨j, hj⟩ := List.getElem?_of_mem hc
      have e := h.edge hh hv hc
      have ha : a c ≤ k := by
        by_contra hlt
        have := (hh.doneIssued _ _ _ ((h.acks v hv j c hj k).mpr (by omega))).1
        omega
      have := e.zu
      have := e.uz
      have := e.za
      omega
    have hzle : z v ≤ k + 1 := by
      by_contra hlt
      have hlen := (hh.doneIssued _ _ _ ((h.clears v hv (k + 1)).mpr (by omega))).1
      rw [Nat.add_mul, Nat.one_mul] at hlen
      omega
    rw [h.value v hv, hsum]
    split_ifs with hr
    · simp
    · have e := h.edgeUp hh hv hr
      have hcl := clearPos_eq hv hr
      have hu : u v ≤ k + 1 := by
        by_contra hlt
        have hlen := (hh.doneIssued _ _ _ ((h.ups v hv hr (k + 1)).mpr (by omega))).1
        rw [Nat.add_mul, Nat.one_mul] at hlen
        omega
      have := e.za
      have := e.az
      have := e.zu
      simp
      omega

/-- between two calls the counter is the number of children that have called in for the next -/
theorem Inv.at_return (h : Inv T s u z a) (hh : (calls ms (node T ack)).Hist s) {v k : ℕ} (hv : v ∈ T.nodes)
    (hpc : s.pc v = (k + 1) * len T v) :
    s.cell v 0 = ((T.children v).countP fun c => s.done c ((k + 1) * len T c + upPos (T.children c)) 0 : ℕ) := by
  have hpos := clearPos_bounds hv
  have hz := h.round hh hv (k := k + 1) (i := 0) (by omega) (by omega)
  have hself : (if v = T.root then 0 else (a v : ℤ) - z v) = 0 := by
    split_ifs with hr
    · rfl
    · have e := h.edgeUp hh hv hr
      have hup := upPos_bounds (T.children v)
      have hu : u v ≤ k + 1 := by
        by_contra hlt
        have := (hh.doneIssued _ _ _ ((h.ups v hv hr (k + 1)).mpr (by omega))).1
        omega
      have := e.za
      have := e.az
      have := e.zu
      omega
  have hterm : ((T.children v).map fun c => (u c : ℤ) - z v) =
      (T.children v).map fun c => if s.done c ((k + 1) * len T c + upPos (T.children c)) 0 = true then 1 else 0 := by
    refine List.map_congr_left fun c hc => ?_
    have e := h.edge hh hv hc
    have hiff := h.ups c (T.child_mem hv hc) (T.child_ne_root hv hc) (k + 1)
    have := e.zu
    have := e.uz
    have := e.za
    have := e.az
    split_ifs with hd
    · have := hiff.mp hd
      omega
    · have : ¬ k + 1 < u c := fun hlt => hd (hiff.mpr hlt)
      omega
  rw [h.value v hv, hself, hterm, add_zero]
  generalize T.children v = l
  induction l with
  | nil => simp
  | cons c l ih =>
    simp only [List.map_cons, List.sum_cons, List.countP_cons, ih]
    push_cast
    rw [add_comm]

end

/-! ## Nodes with children too many

A node that takes on children that are not its own waits for call-ins that do not come. Its parent waits for it, and so on
up to the root, so that nobody is acked and all stay in their first call. -/

section
variable {parent : ℕ} {kids : List ℕ} {ack : ℕ → Instr} {v i : ℕ} {ins : Instr}

/-- where a node stays: the root at the wait for call-ins, another node at the wait for its ack -/
def stopPos (parent : ℕ) (kids : List ℕ) (v : ℕ) : ℕ := if parent = v then 1 else upPos kids + 1

/-- what stands where up to there -/
inductive Early (parent : ℕ) (kids : List ℕ) (v : ℕ) : ℕ → Instr → Prop
  | enter : Early parent kids v 0 .enter
  | callins (h : kids ≠ []) : Early parent kids v 1 (.waitUntil 0 .EQ kids.length)
  | up (h : parent ≠ v) : Early parent kids v (upPos kids) (.atomicAdd 0 1 parent)
  | acked (h : parent ≠ v) (hc : kids ≠ []) : Early parent kids v (upPos kids + 1) (.waitUntil 0 .EQ (kids.length + 1 : ℕ))
  | ackedLeaf (h : parent ≠ v) (hc : kids = []) : Early parent kids v (upPos kids + 1) (.waitUntil 0 .NE 0)

/-- no such instruction touches the memory of the node by itself -/
theorem Early.effect (h : Early parent kids v i ins) (M : Machine Unit) (s : St Unit) (r : ℕ) : M.effect s r ins = s := by
  cases h <;> rfl

theorem stopPos_lt (h : kids = [] → parent ≠ v) : stopPos parent kids v < (syncNode ack parent kids v).length := by
  unfold stopPos syncNode upPos
  by_cases hk : kids = []
  · simp [hk, h hk]
  · by_cases hp : parent = v
    · simp [hk, hp]
    · simp [hk, hp]

theorem early_of_node (h : kids = [] → parent ≠ v) (hi : i ≤ stopPos parent kids v)
    (hins : (syncNode ack parent kids v)[i]? = some ins) : Early parent kids v i ins := by
  unfold syncNode at hins
  by_cases hk : kids = []
  · have hp := h hk
    have hup : upPos kids = 1 := by simp [upPos, hk]
    have hstop : stopPos parent kids v = 2 := by simp [stopPos, hp, hup]
    simp only [hk, ne_eq, not_true_eq_false, if_false] at hins
    obtain rfl | rfl | rfl : i = 0 ∨ i = 1 ∨ i = 2 := by omega
    · simp at hins; subst hins; exact .enter
    · simp at hins; subst hins; exact hup ▸ .up hp
    · simp at hins; subst hins; exact (show upPos kids + 1 = 2 by omega) ▸ .ackedLeaf hp hk
  · have hup : upPos kids = 2 := by simp [upPos, hk]
    by_cases hp : parent = v
    · have hstop : stopPos parent kids v = 1 := by simp [stopPos, hp]
      simp only [hk, ne_eq, not_false_eq_true, if_true, hp] at hins
      obtain rfl | rfl : i = 0 ∨ i = 1 := by omega
      · simp at hins; subst hins; exact .enter
      · simp at hins; subst hins; exact .callins hk
    · have hstop : stopPos parent kids v = 3 := by simp [stopPos, hp, hup]
      simp only [hk, ne_eq, not_false_eq_true, if_true, hp, if_false] at hins
      obtain rfl | rfl | rfl | rfl : i = 0 ∨ i = 1 ∨ i = 2 ∨ i = 3 := by omega
      · simp at hins; subst hins; exact .enter
      · simp at hins; subst hins; exact .callins hk
      · simp at hins; subst hins; exact hup ▸ .up hp
      · have hat : Early parent kids v (upPos kids + 1) _ := .acked hp hk
        rw [hup] at hat
        simp at hins
        subst hins
        simpa using hat

end

/-- some node of a tree with an edge takes on more children than its own -/
structure Crowded (T : ParentTree) (extra : ℕ → List ℕ) (ms : List ℕ) : Prop where
  mem : ∀ v, v ∈ ms ↔ v ∈ T.nodes
  edge : T.children T.root ≠ []
  more : ∃ w ∈ T.nodes, extra w ≠ []

section
variable {T : ParentTree} {extra : ℕ → List ℕ} {ack : ℕ → Instr} {ms : List ℕ} {s : St Unit}

/-- the children a node has computed -/
def kids (T : ParentTree) (extra : ℕ → List ℕ) (v : ℕ) : List ℕ := T.children v ++ extra v

/-- the body of a node that goes by them -/
def crowdedNode (T : ParentTree) (extra : ℕ → List ℕ) (ack : ℕ → Instr) (v : ℕ) : List Instr :=
  syncNode ack (T.parent v) (kids T extra v) v

/-- whether the call-in of c has arrived -/
def calledIn (T : ParentTree) (extra : ℕ → List ℕ) (s : St Unit) (c : ℕ) : Bool := s.done c (upPos (kids T extra c)) 0

/-- nobody gets beyond its wait; a counter counts the call-ins of the node's own children; and who has passed the wait for
call-ins has no other children -/
structure Stuck (T : ParentTree) (extra : ℕ → List ℕ) (s : St Unit) : Prop where
  pc : ∀ v ∈ T.nodes, s.pc v ≤ stopPos (T.parent v) (kids T extra v) v
  value : ∀ v ∈ T.nodes, s.cell v 0 = ((T.children v).countP (calledIn T extra s) : ℕ)
  passed : ∀ v ∈ T.nodes, kids T extra v ≠ [] → 1 < s.pc v → extra v = [] ∧ ∀ c ∈ T.children v, calledIn T extra s c = true

theorem Crowded.leaf (C : Crowded T extra ms) {v : ℕ} (hv : v ∈ T.nodes) (hk : kids T extra v = []) : T.parent v ≠ v := by
  intro hp
  rw [(T.parent_eq_self hv).mp hp] at hk
  exact C.edge (List.append_eq_nil_iff.mp hk).1

/-- a member executes what stands early in its body -/
theorem Crowded.prog (C : Crowded T extra ms) (h : Stuck T extra s) {v i : ℕ} {ins : Instr} (hi : i ≤ s.pc v)
    (hp : (calls ms (crowdedNode T extra ack)).prog v i = some ins) :
    v ∈ T.nodes ∧ Early (T.parent v) (kids T extra v) v i ins := by
  simp only [calls] at hp
  split_ifs at hp with hv
  have hv' := (C.mem v).mp hv
  have hstop := hi.trans (h.pc v hv')
  rw [crowdedNode, Nat.mod_eq_of_lt (hstop.trans_lt (stopPos_lt (C.leaf hv')))] at hp
  exact ⟨hv', early_of_node (C.leaf hv') hstop hp⟩

/-- the counter shows as many call-ins as children only if there are no other children -/
theorem Stuck.count (h : Stuck T extra s) {v : ℕ} (hv : v ∈ T.nodes) :
    s.cell v 0 ≤ (T.children v).length ∧ (s.cell v 0 = (kids T extra v).length →
      extra v = [] ∧ ∀ c ∈ T.children v, calledIn T extra s c = true) := by
  have hle := List.countP_le_length (p := calledIn T extra s) (l := T.children v)
  rw [h.value v hv, kids, List.length_append]
  refine ⟨by exact_mod_cast hle, fun heq => ?_⟩
  have hcount : (T.children v).countP (calledIn T extra s) = (T.children v).length := by omega
  refine ⟨List.length_eq_zero_iff.mp (by omega), fun c hc => ?_⟩
  exact List.countP_eq_length.mp hcount c hc

/-- the root waits for ever -/
theorem Crowded.root_waits (C : Crowded T extra ms) (h : Stuck T extra s)
    (hh : (calls ms (crowdedNode T extra ack)).Hist s) : s.cell T.root 0 ≠ (kids T extra T.root).length := by
  intro heq
  -- else all below have called in, and nobody has children too many
  have hall : ∀ v ∈ T.nodes, extra v = [] ∧ ∀ c ∈ T.children v, calledIn T extra s c = true := by
    refine T.down ((h.count T.root_mem).2 heq) fun v hv hr ih => ?_
    have hup := (hh.doneIssued _ _ _ (ih.2 v (T.mem_children_parent hv hr))).1
    by_cases hk : kids T extra v = []
    · obtain ⟨hc, he⟩ := List.append_eq_nil_iff.mp hk
      exact ⟨he, fun c hmem => by rw [hc] at hmem; cases hmem⟩
    · have h2 : upPos (kids T extra v) = 2 := by simp [upPos, hk]
      exact h.passed v hv hk (by omega)
  obtain ⟨w, hw, hne⟩ := C.more
  exact hne (hall w hw).1

theorem Crowded.exec (C : Crowded T extra ms) (h : Stuck T extra s) (hh : (calls ms (crowdedNode T extra ack)).Hist s)
    {r : ℕ} {ins : Instr} (hp : (calls ms (crowdedNode T extra ack)).prog r (s.pc r) = some ins)
    (he : (calls ms (crowdedNode T extra ack)).Enabled s r ins) :
    Stuck T extra (advance ((calls ms (crowdedNode T extra ack)).effect s r ins) r) := by
  obtain ⟨hr, hat⟩ := C.prog h le_rfl hp
  have hcount := h.count hr
  have hup := upPos_bounds (kids T extra r)
  rw [hat.effect]
  refine ⟨fun v hv => ?_, h.value, fun v hv hk hpc => ?_⟩
  · by_cases hvr : v = r
    · subst hvr
      rw [advance_pc_self]
      generalize hpc : s.pc v = i at hat
      have hstop : T.parent v ≠ v → stopPos (T.parent v) (kids T extra v) v = upPos (kids T extra v) + 1 :=
        fun hne => if_neg hne
      cases hat with
      | enter =>
        unfold stopPos
        split_ifs <;> omega
      | callins hne =>
        -- not the root
        have hroot : T.parent v ≠ v := fun heq => by
          obtain rfl := (T.parent_eq_self hv).mp heq
          exact C.root_waits h hh he
        have h2 : upPos (kids T extra v) = 2 := by simp [upPos, hne]
        rw [hstop hroot]
        omega
      | up hne => rw [hstop hne]
      | acked hne hc =>
        -- not acked
        have hle := hcount.1
        have heq : s.cell v 0 = ((kids T extra v).length + 1 : ℕ) := he
        rw [kids, List.length_append] at heq
        omega
      | ackedLeaf hne hc =>
        have hle := hcount.1
        have hzero := h.value v hv
        rw [(List.append_eq_nil_iff.mp hc).1] at hzero
        exact absurd hzero he
    · rw [advance_pc_other _ hvr]
      exact h.pc v hv
  · by_cases hvr : v = r
    · subst hvr
      rw [advance_pc_self] at hpc
      by_cases hlt : 1 < s.pc v
      · exact h.passed v hv hk hlt
      · generalize hpc' : s.pc v = i at hat
        have h2 : upPos (kids T extra v) = 2 := by simp [upPos, hk]
        cases hat with
        | callins hne => exact hcount.2 he
        | _ => omega
    · rw [advance_pc_other _ hvr] at hpc
      exact h.passed v hv hk hpc

/-- one more that counts -/
theorem countP_more {l : List ℕ} (hl : l.Nodup) {p p' : ℕ → Bool} {x : ℕ} (hx : p x = false) (hx' : p' x = true)
    (hother : ∀ c, c ≠ x → p' c = p c) : l.countP p' = l.countP p + if x ∈ l then 1 else 0 := by
  induction l with
  | nil => rfl
  | cons y l ih =>
    obtain ⟨hy, hl⟩ := List.nodup_cons.mp hl
    rw [List.countP_cons, List.countP_cons, ih hl]
    by_cases hxy : y = x
    · subst hxy
      simp [hx, hx', hy]
    · simp only [hother y hxy, List.mem_cons, Ne.symm hxy, false_or]
      omega

theorem Crowded.deliver (C : Crowded T extra ms) (h : Stuck T extra s) {r i j : ℕ} {ins : Instr}
    (hp : (calls ms (crowdedNode T extra ack)).prog r i = some ins)
    (hd : (calls ms (crowdedNode T extra ack)).Deliverable s r i j) :
    Stuck T extra (mark ((calls ms (crowdedNode T extra ack)).arrive s r i j ins) r i j) := by
  obtain ⟨hpc, hj, hnd, -, -⟩ := hd
  obtain ⟨hr, hat⟩ := C.prog h hpc.le hp
  rw [partsAt_eq _ hp] at hj
  cases hat with
  | up hne =>
    obtain rfl : j = 0 := by
      simp only [Instr.parts] at hj
      omega
    have hroot : r ≠ T.root := fun heq => hne ((T.parent_eq_self hr).mpr heq)
    generalize hs' : mark ((calls ms (crowdedNode T extra ack)).arrive s r (upPos (kids T extra r)) 0
      (.atomicAdd 0 1 (T.parent r))) r (upPos (kids T extra r)) 0 = s'
    have hself : calledIn T extra s' r = true := by
      rw [← hs', calledIn, mark_done]
      exact .inl ⟨rfl, rfl, rfl⟩
    have hother : ∀ c, c ≠ r → calledIn T extra s' c = calledIn T extra s c := by
      intro c hc
      rw [Bool.eq_iff_iff, ← hs', calledIn, mark_done, arrive_done]
      simp [calledIn, hc]
    refine ⟨fun v hv => ?_, fun v hv => ?_, fun v hv hk hpc => ?_⟩
    · rw [← hs', mark_pc, arrive_pc]
      exact h.pc v hv
    · rw [countP_more (p := calledIn T extra s) (T.nodup v hv) hnd hself hother, ← hs', mark_cell]
      simp only [arrive, setCell_apply, and_true]
      by_cases hvp : v = T.parent r
      · subst hvp
        rw [if_pos rfl, if_pos (T.mem_children_parent hr hroot), h.value _ hv]
        push_cast
        ring
      · have hnot : r ∉ T.children v := fun hmem => hvp (T.parent_child hv hmem).symm
        rw [if_neg hvp, if_neg hnot, h.value v hv, Nat.add_zero]
    · rw [← hs', mark_pc, arrive_pc] at hpc
      obtain ⟨he, hall⟩ := h.passed v hv hk hpc
      refine ⟨he, fun c hc => ?_⟩
      by_cases hcr : c = r
      · exact hcr ▸ hself
      · rw [hother c hcr]
        exact hall c hc
  | _ => exact absurd hj (by simp [Instr.parts])

theorem Crowded.keeps (C : Crowded T extra ms) : (calls ms (crowdedNode T extra ack)).Keeps fun s => Stuck T extra s where
  exec s r ins hh h hp he := C.exec h hh hp he
  capture s r i j ins v hh h hp hpc hj hc hv := by
    obtain ⟨-, hat⟩ := C.prog h hpc.le hp
    have hreads : ins.reads = 0 := by cases hat <;> rfl
    omega
  deliver s r i j ins hh h hp hd := C.deliver h hp hd

/-- **All stay in their first call.** -/
theorem Crowded.run_stuck (C : Crowded T extra ms) (ops : List Op) :
    Stuck T extra ((calls ms (crowdedNode T extra ack)).run (init (fun _ _ => 0) fun _ _ => ()) ops) := by
  refine (C.keeps.run (hist_init _ _ _) ⟨fun v hv => ?_, fun v hv => ?_, fun v hv _ hpc => ?_⟩ ops).2
  · exact Nat.zero_le _
  · have hnone : (T.children v).countP (calledIn T extra (init (fun _ _ => 0) fun _ _ => ())) = 0 :=
      List.countP_eq_zero.mpr fun c _ => Bool.false_ne_true
    rw [hnone]
    rfl
  · exact absurd hpc (by simp [init])

end

/-! ## The two barriers -/

/-- a member is at 0 of the star or not -/
theorem starTree_family (A : ActiveSet) {v : ℕ} (hv : v ∈ A.members) :
    (starTree A).parent v = A.PE_start ∧ (starTree A).children v = callers A .linear v := by
  obtain ⟨r, hr, rfl⟩ := A.mem_members.mp hv
  refine ⟨by simp [starTree, ParentTree.map, starRanks], ?_⟩
  simp only [starTree, ParentTree.map, starRanks, callers, A.rank_pe]
  by_cases h0 : r = 0
  · subst h0
    simp [Function.comp_def, ActiveSet.pe]
  · have hne : A.PE_start ≠ A.pe r := by
      rw [← A.pe_zero]
      exact fun h => h0 (A.pe_inj.mp h).symm
    simp [h0, hne]

theorem linear_proto (A : ActiveSet) (h2 : 2 ≤ A.PE_size) :
    Proto (starTree A) (fun c => .putScalar 0 1 c) A.members ∧
      ∀ v ∈ A.members, syncBody A .linear v = node (starTree A) (fun c => .putScalar 0 1 c) v := by
  have hnodes : ∀ v, v ∈ A.members ↔ v ∈ (starTree A).nodes := by
    intro v
    simp [starTree, ParentTree.map, starRanks, A.mem_members]
  have hroot : (starTree A).root = A.PE_start := by simp [starTree, ParentTree.map, starRanks]
  have hstart : A.PE_start ∈ A.members := by rw [← A.pe_zero]; exact A.pe_mem (by omega)
  have hne : callers A .linear A.PE_start ≠ [] := by simp [callers]; omega
  refine ⟨⟨hnodes, ?_, ?_⟩, ?_⟩
  · rw [hroot, (starTree_family A hstart).2]
    exact hne
  · intro v hv c hc
    refine Or.inr ⟨rfl, ?_⟩
    have hcm := (starTree A).child_mem hv hc
    have hcr := (starTree A).child_ne_root hv hc
    rw [(starTree_family A ((hnodes c).mpr hcm)).2]
    rw [hroot] at hcr
    simp [callers, hcr.symm]
  · intro v hv
    obtain ⟨hp, hc⟩ := starTree_family A hv
    rw [node, hp, hc]
    by_cases hs : A.PE_start = v
    · subst hs
      simp only [syncBody, syncLinear, syncNode, hne, if_true, ne_eq, not_false_eq_true]
      simp [callers, Function.comp_def]
    · simp [syncBody, syncLinear, syncNode, callers, hs]

/-- the body of a barrier, the call-ins and the root are those of a tree -/
def OnTree (A : ActiveSet) (alg : SyncAlg) (T : ParentTree) (ack : ℕ → Instr) : Prop :=
  ∀ v ∈ A.members, syncBody A alg v = node T ack v ∧ callers A alg v = T.children v ∧ (isRoot A alg v ↔ T.parent v = v)

/-- the second member is not the root -/
theorem children_root {A : ActiveSet} {T : ParentTree} (h2 : 2 ≤ A.PE_size) (hroot : T.root = A.pe 0)
    (hnodes : ∀ v, v ∈ A.members ↔ v ∈ T.nodes) : T.children T.root ≠ [] := by
  have h1 : A.pe 1 ∈ T.nodes := (hnodes _).mp (A.pe_mem (by omega))
  refine T.children_root_ne_nil h1 ?_
  rw [hroot]
  exact fun h => absurd (A.pe_inj.mp h) (by decide)

theorem tree_proto {radix : ℕ} {A : ActiveSet} {T : ParentTree} (h2 : 2 ≤ A.PE_size) (hroot : T.root = A.pe 0)
    (hnodes : ∀ v, v ∈ A.members ↔ v ∈ T.nodes)
    (hfam : ∀ v ∈ A.members, treeFamily radix A 0 v = (T.parent v, T.children v)) :
    Proto T (fun c => .atomicAdd 0 1 c) A.members ∧ OnTree A (.tree radix) T fun c => .atomicAdd 0 1 c := by
  refine ⟨⟨hnodes, children_root h2 hroot hnodes, fun v _ c _ => Or.inl rfl⟩, fun v hv => ⟨?_, ?_, ?_⟩⟩
  · rw [node, syncBody, syncTree, hfam v hv]
  · simp [callers, hfam v hv]
  · simp [isRoot, hfam v hv]

theorem linear_on_tree (A : ActiveSet) (h2 : 2 ≤ A.PE_size) :
    Proto (starTree A) (fun c => .putScalar 0 1 c) A.members ∧ OnTree A .linear (starTree A) fun c => .putScalar 0 1 c := by
  obtain ⟨P, hbody⟩ := linear_proto A h2
  refine ⟨P, fun v hv => ⟨hbody v hv, (starTree_family A hv).2.symm, ?_⟩⟩
  rw [(starTree_family A hv).1]
  exact Iff.rfl

/-- either barrier is the protocol on a tree -/
theorem exists_proto (A : ActiveSet) (h2 : 2 ≤ A.PE_size) (alg : SyncAlg)
    (hr : ∀ radix, alg = .tree radix → TreeFits radix A 0) :
    ∃ T ack, Proto T ack A.members ∧ OnTree A alg T ack := by
  cases alg with
  | linear => exact ⟨_, _, linear_on_tree A h2⟩
  | tree radix =>
    obtain ⟨T, hroot, hnodes, hfam⟩ := exists_tree (hr radix rfl) h2 (show 0 < A.PE_size by omega)
    exact ⟨T, _, tree_proto h2 hroot hnodes hfam⟩

/-- or there is one on which some nodes take on more children -/
theorem exists_proto_or_crowded (A : ActiveSet) (h2 : 2 ≤ A.PE_size) (alg : SyncAlg)
    (hr : ∀ radix, alg = .tree radix → TreeRuns radix A) :
    (∃ T ack, Proto T ack A.members ∧ OnTree A alg T ack) ∨
      ∃ T extra ack, Crowded T extra A.members ∧ ∀ v ∈ A.members, syncBody A alg v = crowdedNode T extra ack v := by
  cases alg with
  | linear => exact .inl ⟨_, _, linear_on_tree A h2⟩
  | tree radix =>
    obtain ⟨T, extra, hroot, hnodes, hfam⟩ := exists_tree_append (hr radix rfl) h2
    by_cases hnone : ∀ v ∈ T.nodes, extra v = []
    · refine .inl ⟨T, _, tree_proto h2 hroot hnodes fun v hv => ?_⟩
      rw [hfam v hv, hnone v ((hnodes v).mp hv), List.append_nil]
    · push Not at hnone
      refine .inr ⟨T, extra, fun c => .atomicAdd 0 1 c, ⟨hnodes, children_root h2 hroot hnodes, hnone⟩, fun v hv => ?_⟩
      rw [syncBody, syncTree, hfam v hv, crowdedNode, kids]

/-- what the barriers promise, in a state of their consecutive calls -/
structure SyncOk (A : ActiveSet) (alg : SyncAlg) (s : St Unit) : Prop where
  /-- nobody returns from its k-th call before everybody has entered its k-th call -/
  barrier : ∀ p ∈ A.members, ∀ q ∈ A.members, ∀ k,
    Returned (syncBody A alg) s p k → Entered (syncBody A alg) s q k
  /-- at return pSync is the number of call-ins for the next round that have been counted there -/
  atReturn : ∀ p ∈ A.members, ∀ k, JustReturned (syncBody A alg) s p k →
    s.cell p 0 = ((callers A alg p).countP fun c =>
      s.done c ((k + 1) * (syncBody A alg c).length + upPos (callers A alg c)) 0 : ℕ)
  /-- pSync does not exceed a number of call-ins and acks that is waited for -/
  notOvertaken : ∀ p ∈ A.members, ∀ n : ℕ, n ≠ 0 →
    (calls A.members (syncBody A alg)).prog p (s.pc p) = some (.waitUntil 0 .EQ n) → s.cell p 0 ≤ n
  /-- while the clearing put is in flight pSync holds what was waited for, and then zero until zero is seen -/
  clearing : ∀ p ∈ A.members, ∀ k i, (syncBody A alg p)[i]? = some (.putScalar 0 0 p) →
    (k * (syncBody A alg p).length + i < s.pc p → s.done p (k * (syncBody A alg p).length + i) 0 = false →
      s.cell p 0 = ((callers A alg p).length : ℤ) + if isRoot A alg p then 0 else 1) ∧
    (s.pc p = k * (syncBody A alg p).length + (i + 1) →
      s.done p (k * (syncBody A alg p).length + i) 0 = true → s.cell p 0 = 0)

/-- on a tree the promises are kept -/
theorem Proto.syncOk {A : ActiveSet} {alg : SyncAlg} {T : ParentTree} {ack : ℕ → Instr} (P : Proto T ack A.members)
    (hT : OnTree A alg T ack) (ops : List Op) :
    SyncOk A alg ((calls A.members (syncBody A alg)).run (init (fun _ _ => 0) fun _ _ => ()) ops) := by
  have hM := calls_congr fun v hv => (hT v hv).1
  have hlen : ∀ v ∈ A.members, (syncBody A alg v).length = len T v := by
    intro v hv
    rw [(hT v hv).1, node_length (P.leaf ((P.mem v).mp hv))]
  rw [hM]
  obtain ⟨hh, u, z, a, h⟩ := P.run_inv ops
  generalize (calls A.members (node T ack)).run (init (fun _ _ => 0) fun _ _ => ()) ops = s at hh h
  refine ⟨?_, ?_, ?_, ?_⟩
  · intro p hp q hq k hret
    unfold Returned Entered at *
    rw [hlen p hp] at hret
    rw [hlen q hq]
    exact h.barrier hh ((P.mem p).mp hp) ((P.mem q).mp hq) hret
  · intro p hp k hret
    unfold JustReturned at hret
    rw [hlen p hp] at hret
    have hpn := (P.mem p).mp hp
    rw [h.at_return hh hpn hret, (hT p hp).2.1]
    congr 1
    refine List.countP_congr fun c hc => ?_
    have hcm := (P.mem c).mpr (T.child_mem hpn hc)
    rw [hlen c hcm, (hT c hcm).2.1]
  · intro p hp n hn hw
    rw [hM] at hw
    obtain ⟨hpn, hat⟩ := P.prog hw
    have hpc : s.pc p = s.pc p / len T p * len T p + s.pc p % len T p := by
      rw [Nat.mul_comm]
      exact (Nat.div_add_mod _ _).symm
    generalize s.pc p % len T p = x at hat hpc
    generalize hins : Instr.waitUntil 0 .EQ (n : ℤ) = ins at hat
    cases hat with
    | callins hne =>
      simp only [Instr.waitUntil.injEq, Nat.cast_inj, true_and] at hins
      rw [hins]
      exact h.le_children hh hpn hpc
    | acked hne hc =>
      simp only [Instr.waitUntil.injEq, Nat.cast_inj, true_and] at hins
      have := h.le_waited hh hpn
      rw [waited, if_neg hne] at this
      rw [hins]
      exact this
    | cleared =>
      simp only [Instr.waitUntil.injEq, true_and] at hins
      exact absurd (by exact_mod_cast hins) hn
    | ack j c hj =>
      rcases P.ack p hpn c (List.mem_of_getElem? hj) with heq | ⟨heq, -⟩ <;> rw [heq] at hins <;> simp at hins
    | _ => simp at hins
  · intro p hp k i hi
    have hpn := (P.mem p).mp hp
    rw [(hT p hp).1] at hi
    -- the only put of zero of a node is its clear
    have hpos : i = clearPos T p := by
      have hat := nodeAt_of_node (P.leaf hpn) hi
      generalize hins : Instr.putScalar 0 0 p = ins at hat
      cases hat with
      | clear => rfl
      | ack j c hj =>
        rcases P.ack p hpn c (List.mem_of_getElem? hj) with heq | ⟨heq, -⟩ <;> rw [heq] at hins <;> simp at hins
      | _ => simp at hins
    subst hpos
    rw [hlen p hp, (hT p hp).2.1]
    refine ⟨fun hpc hnd => ?_, fun hpc hd => ?_⟩
    · rw [h.eq_waited hh hpn hpc hnd, waited]
      simp only [(hT p hp).2.2]
      split_ifs <;> simp
    · rcases h.zero_or_clearing hh hpn hpc with hf | h0
      · rw [hd] at hf
        exact absurd hf (by decide)
      · exact h0

/-- and where some nodes take on more children nobody returns -/
theorem Crowded.syncOk {A : ActiveSet} {alg : SyncAlg} {T : ParentTree} {extra : ℕ → List ℕ} {ack : ℕ → Instr}
    (C : Crowded T extra A.members) (hbody : ∀ v ∈ A.members, syncBody A alg v = crowdedNode T extra ack v)
    (ops : List Op) :
    SyncOk A alg ((calls A.members (syncBody A alg)).run (init (fun _ _ => 0) fun _ _ => ()) ops) := by
  have hM := calls_congr hbody
  rw [hM]
  have h : Stuck T extra ((calls A.members (crowdedNode T extra ack)).run (init (fun _ _ => 0) fun _ _ => ()) ops) :=
    C.run_stuck ops
  generalize (calls A.members (crowdedNode T extra ack)).run (init (fun _ _ => 0) fun _ _ => ()) ops = s at h
  have hlen : ∀ p ∈ A.members, s.pc p < (syncBody A alg p).length := fun p hp => by
    have hpn := (C.mem p).mp hp
    rw [hbody p hp]
    exact (h.pc p hpn).trans_lt (stopPos_lt (C.leaf hpn))
  refine ⟨fun p hp q hq k hret => ?_, fun p hp k hret => ?_, fun p hp n hn hw => ?_, fun p hp k i hi => ?_⟩
  · have hlt := hlen p hp
    unfold Returned at hret
    have hle := Nat.le_mul_of_pos_left (syncBody A alg p).length (show 0 < k + 1 by omega)
    omega
  · have hlt := hlen p hp
    unfold JustReturned at hret
    have hle := Nat.le_mul_of_pos_left (syncBody A alg p).length (show 0 < k + 1 by omega)
    omega
  · rw [hM] at hw
    obtain ⟨hpn, hat⟩ := C.prog h le_rfl hw
    have hle := (h.count hpn).1
    generalize s.pc p = i at hat
    generalize hins : Instr.waitUntil 0 .EQ (n : ℤ) = ins at hat
    cases hat with
    | callins hne =>
      simp only [Instr.waitUntil.injEq, Nat.cast_inj, true_and] at hins
      rw [hins, kids, List.length_append]
      omega
    | acked hne hc =>
      simp only [Instr.waitUntil.injEq, Nat.cast_inj, true_and] at hins
      rw [hins, kids, List.length_append]
      omega
    | _ => simp at hins
  · -- nobody gets to its clear
    have hpn := (C.mem p).mp hp
    have hstop : stopPos (T.parent p) (kids T extra p) p < i := by
      by_contra hle
      rw [hbody p hp] at hi
      have hat := early_of_node (C.leaf hpn) (not_lt.mp hle) hi
      generalize hins : Instr.putScalar 0 0 p = ins at hat
      cases hat <;> simp at hins
    have hpc := h.pc p hpn
    exact ⟨fun hlt => by omega, fun heq => by omega⟩

/-- three PEs of six, two apart -/
def threeOfSix : ActiveSet := ⟨1, 2, 3, 6, Nat.two_pos, ActiveSet.three_pos, by decide⟩

/-- PE 1 is the root of the binary tree over PEs 1, 3, 5. Both leaves call in, the root clears and acks, PE 3 returns and
calls in again before PE 5 has seen its ack -/
def threeSched : List Op :=
  [.exec 3, .exec 3, .deliver 3 1 0, .exec 5, .exec 5, .deliver 5 1 0, .exec 1, .exec 1, .exec 1, .deliver 1 2 0,
    .exec 1, .exec 1, .exec 1, .deliver 1 4 0, .exec 3, .exec 3, .deliver 3 3 0, .exec 3, .exec 3, .exec 3,
    .deliver 3 6 0]

theorem threeOfSix_fits : TreeFits 2 threeOfSix 0 :=
  ⟨by decide, by decide, fun h => absurd h.1 (by decide), fun _ => by decide⟩

end SandiaShmem.Collectives
