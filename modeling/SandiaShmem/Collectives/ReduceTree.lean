/-
Reductions with atomics.

Both reductions are one protocol over a tree of the active set, followed by a broadcast of the target of the root. A node
with children puts its source into its own target, tells the children that they may send (clear to send), and waits until
its counter pSync[0] has got one add from each. A node other than the root waits until it may send, applies what it has
to the target of its parent with atomics, fences, and adds 1 to its parent's counter. The linear reduction is the protocol
on the star, where pSync[0] also is the word of the clear to send; the tree has pSync[1] for that. The broadcast uses
pSync[2].

The contributions of a node's children arrive in any order, element by element. What a target holds is therefore said
with the set of PEs whose values are in it (`Values.target`), and the operation is associative and commutative.

- `Words`: the counters and the clear-to-send words, and who is past a wait got what it waited for.
- `Values`: what the targets hold, as long as the broadcast has not begun.
- `op_to_all_correct`: both reductions in every state of a run.
-/
import SandiaShmem.Core.Ledger
import SandiaShmem.Core.Reduction
import SandiaShmem.Collectives.Bcast

namespace SandiaShmem.Collectives

open OneSided OneSided.Machine Reduction

namespace ReduceTree

/-! ## Model -/

section
variable (G : ReduceArgs)

/-- the own contribution -/
def own (my_pe : ℕ) : List Instr := [.putNb G.target (.sym G.source) G.count my_pe, .putWait, .quiet]

/-- a word is reset -/
def reset (word my_pe : ℕ) : List Instr := [.putScalar word 0 my_pe, .waitUntil word .EQ 0]

/-- send data and ack -/
def contribute (src pe : ℕ) : List Instr :=
  [.atomicv G.target (.sym src) G.count pe, .putWait, .fence, .atomicAdd 0 1 pe]

/-- the broadcast at the end: not complete, from the root's target, with `pSync + 2` -/
def bcastArgs : BcastArgs := ⟨2, G.target, G.target, G.count, false⟩

/-- `shmem_internal_op_to_all_linear` before its broadcast -/
def linearPart (my_pe : ℕ) : List Instr :=
  if G.A.PE_start = my_pe then
    own G my_pe ++ ((List.range (G.A.PE_size - 1)).map (fun i => Instr.putScalar 0 1 (G.A.pe (i + 1))) ++
      (.waitUntil 0 .EQ (G.A.PE_size - 1 : ℕ) :: reset 0 my_pe))
  else
    .waitUntil 0 .NE 0 :: (reset 0 my_pe ++ contribute G G.source G.A.PE_start)

/-- `shmem_internal_op_to_all_linear` on the PE my_pe -/
def opToAllLinear (bcast : BcastAlg) (my_pe : ℕ) : List Instr :=
  if G.count = 0 then [] else linearPart G my_pe ++ bcastBody G.A (bcastArgs G) 0 bcast my_pe

/-- `shmem_internal_op_to_all_tree` before its broadcast -/
def treePart (radix my_pe : ℕ) : List Instr :=
  let parent := (treeFamily radix G.A 0 my_pe).1
  let children := (treeFamily radix G.A 0 my_pe).2
  (if children ≠ [] then
    own G my_pe ++ (children.map (fun c => Instr.putScalar 1 1 c) ++
      (.waitUntil 0 .EQ children.length :: reset 0 my_pe))
  else []) ++
  if parent ≠ my_pe then
    .waitUntil 1 .NE 0 :: (reset 1 my_pe ++ contribute G (if children = [] then G.source else G.target) parent)
  else []

/-- `shmem_internal_op_to_all_tree` on the PE my_pe -/
def opToAllTree (radix : ℕ) (bcast : BcastAlg) (my_pe : ℕ) : List Instr :=
  if G.A.PE_size = 1 then
    if G.target ≠ G.source then [.memcpy (.sym G.target) (.sym G.source) G.count] else []
  else if G.count = 0 then []
  else treePart G radix my_pe ++ bcastBody G.A (bcastArgs G) 0 bcast my_pe

end

/-- the two reductions with atomics -/
inductive ReduceAlg where
  | linear
  | tree (radix : ℕ)
deriving DecidableEq, Repr

/-- its tree is right -/
def ReduceAlg.Valid (A : ActiveSet) : ReduceAlg → Prop
  | .linear => True
  | .tree radix => 2 ≤ A.PE_size → TreeFits radix A 0

/-- what a member does in one of them -/
def ReduceAlg.body (G : ReduceArgs) (bcast : BcastAlg) : ReduceAlg → ℕ → List Instr
  | .linear => opToAllLinear G bcast
  | .tree radix => opToAllTree G radix bcast

/-! ## The protocol on a tree -/

/-- the tree, and the word of the clear to send -/
structure Plan where
  T : ParentTree
  cts : ℕ

namespace Plan
variable (R : Plan) (G : ReduceArgs)

/-- a node that others send to, or the root -/
def Inner (v : ℕ) : Prop := v = R.T.root ∨ R.T.children v ≠ []

instance (v : ℕ) : Decidable (R.Inner v) := inferInstanceAs (Decidable (_ ∨ _))

/-- where a node has what it sends -/
def sendBuf (v : ℕ) : ℕ := if R.T.children v = [] then G.source else G.target

/-- a node collects what its children send -/
def inner (v : ℕ) : List Instr :=
  if R.Inner v then
    own G v ++ ((R.T.children v).map (fun c => Instr.putScalar R.cts 1 c) ++
      (.waitUntil 0 .EQ (R.T.children v).length :: reset 0 v))
  else []

/-- it sends to its parent -/
def outer (v : ℕ) : List Instr :=
  if v = R.T.root then []
  else .waitUntil R.cts .NE 0 :: (reset R.cts v ++ contribute G (R.sendBuf G v) (R.T.parent v))

/-- the part before the broadcast -/
def node (v : ℕ) : List Instr := R.inner G v ++ R.outer G v

/-! ## Positions -/

/-- where a node waits for its children -/
def waitPos (v : ℕ) : ℕ := 3 + (R.T.children v).length

/-- where it waits until it may send -/
def upPos (v : ℕ) : ℕ := if R.Inner v then R.waitPos v + 3 else 0

def sendPos (v : ℕ) : ℕ := R.upPos v + 3
def addPos (v : ℕ) : ℕ := R.upPos v + 6

/-- where the broadcast begins -/
def off (v : ℕ) : ℕ := R.upPos v + if v = R.T.root then 0 else 7

/-- what stands where in the program of v -/
inductive CodeAt (v : ℕ) : ℕ → Instr → Prop
  | own (h : R.Inner v) : CodeAt v 0 (.putNb G.target (.sym G.source) G.count v)
  | ownWait (h : R.Inner v) : CodeAt v 1 .putWait
  | stored (h : R.Inner v) : CodeAt v 2 .quiet
  | cts (i c : ℕ) (h : (R.T.children v)[i]? = some c) : CodeAt v (3 + i) (.putScalar R.cts 1 c)
  | wait (h : R.Inner v) : CodeAt v (R.waitPos v) (.waitUntil 0 .EQ (R.T.children v).length)
  | zero (h : R.Inner v) : CodeAt v (R.waitPos v + 1) (.putScalar 0 0 v)
  | zeroed (h : R.Inner v) : CodeAt v (R.waitPos v + 2) (.waitUntil 0 .EQ 0)
  | clear (h : v ≠ R.T.root) : CodeAt v (R.upPos v) (.waitUntil R.cts .NE 0)
  | ctsZero (h : v ≠ R.T.root) : CodeAt v (R.upPos v + 1) (.putScalar R.cts 0 v)
  | ctsZeroed (h : v ≠ R.T.root) : CodeAt v (R.upPos v + 2) (.waitUntil R.cts .EQ 0)
  | send (h : v ≠ R.T.root) :
    CodeAt v (R.sendPos v) (.atomicv G.target (.sym (R.sendBuf G v)) G.count (R.T.parent v))
  | sendWait (h : v ≠ R.T.root) : CodeAt v (R.upPos v + 4) .putWait
  | fence (h : v ≠ R.T.root) : CodeAt v (R.upPos v + 5) .fence
  | add (h : v ≠ R.T.root) : CodeAt v (R.addPos v) (.atomicAdd 0 1 (R.T.parent v))

variable {R G}

theorem CodeAt.at_pos {v t t' : ℕ} {ins : Instr} (h : R.CodeAt G v t ins) (heq : t = t') : R.CodeAt G v t' ins := heq ▸ h

theorem inner_of_child {v i c : ℕ} (h : (R.T.children v)[i]? = some c) : R.Inner v :=
  .inr (List.ne_nil_of_mem (List.mem_of_getElem? h))

theorem length_inner (v : ℕ) : (R.inner G v).length = R.upPos v := by
  unfold inner upPos
  split_ifs
  · simp only [own, reset, waitPos, List.length_append, List.length_cons, List.length_map, List.length_nil]
    omega
  · rfl

theorem length_node (v : ℕ) : (R.node G v).length = R.off v := by
  rw [node, List.length_append, length_inner, off, outer]
  split_ifs <;> rfl

theorem CodeAt.getElem {v t : ℕ} {ins : Instr} (h : R.CodeAt G v t ins) : (R.node G v)[t]? = some ins := by
  -- behind the clear-to-send puts of a node with children
  have hwait : ∀ {x : ℕ} {ins : Instr}, R.Inner v →
      (Instr.waitUntil 0 .EQ (R.T.children v).length :: ReduceTree.reset 0 v)[x]? = some ins →
      (R.node G v)[R.waitPos v + x]? = some ins := by
    intro x ins hi hx
    refine getElem?_append_of_left ?_
    have h := getElem?_append_of_right (ReduceTree.own G v) (getElem?_append_of_right
      ((R.T.children v).map fun c => Instr.putScalar R.cts 1 c) hx)
    rw [List.length_map, ← Nat.add_assoc] at h
    rw [inner, if_pos hi]
    exact h
  -- the part that sends
  have hup : ∀ {x : ℕ} {ins : Instr}, v ≠ R.T.root → (Instr.waitUntil R.cts .NE 0 :: (ReduceTree.reset R.cts v ++
      contribute G (R.sendBuf G v) (R.T.parent v)))[x]? = some ins → (R.node G v)[R.upPos v + x]? = some ins := by
    intro x ins hr hx
    rw [← length_inner (G := G)]
    refine getElem?_append_of_right _ ?_
    rw [outer, if_neg hr]
    exact hx
  have hown : ∀ {x : ℕ} {ins : Instr}, R.Inner v → (ReduceTree.own G v)[x]? = some ins →
      (R.node G v)[x]? = some ins := by
    intro x ins hi hx
    refine getElem?_append_of_left ?_
    rw [inner, if_pos hi]
    exact getElem?_append_of_left hx
  cases h with
  | own hi => exact hown hi rfl
  | ownWait hi => exact hown hi rfl
  | stored hi => exact hown hi rfl
  | cts i c hc =>
    refine getElem?_append_of_left ?_
    rw [inner, if_pos (inner_of_child hc)]
    refine getElem?_append_of_right (ReduceTree.own G v) (getElem?_append_of_left ?_)
    rw [List.getElem?_map, hc]
    rfl
  | wait hi => exact hwait (x := 0) hi rfl
  | zero hi => exact hwait hi rfl
  | zeroed hi => exact hwait hi rfl
  | clear hr => exact hup (x := 0) hr rfl
  | ctsZero hr => exact hup hr rfl
  | ctsZeroed hr => exact hup hr rfl
  | send hr => exact hup hr rfl
  | sendWait hr => exact hup hr rfl
  | fence hr => exact hup hr rfl
  | add hr => exact hup hr rfl

/-- the program of a node before the broadcast, instruction by instruction -/
theorem codeAt_of_getElem {v t : ℕ} {ins : Instr} (h : (R.node G v)[t]? = some ins) : R.CodeAt G v t ins := by
  rcases getElem?_append_cases h with h | ⟨x, rfl, hx⟩
  · unfold inner at h
    split_ifs at h with hi
    swap
    · exact absurd h (by simp)
    rcases getElem?_append_cases h with h | ⟨x, rfl, hx⟩
    · match t, h with
      | 0, h => exact Option.some.inj h ▸ .own hi
      | 1, h => exact Option.some.inj h ▸ .ownWait hi
      | 2, h => exact Option.some.inj h ▸ .stored hi
      | t + 3, h => exact absurd h (by simp [ReduceTree.own])
    rcases getElem?_append_cases hx with h | ⟨y, rfl, hy⟩
    · rw [List.getElem?_map] at h
      obtain ⟨c, hc, rfl⟩ := Option.map_eq_some_iff.mp h
      exact .cts x c hc
    · rw [List.length_map]
      have hpos : (ReduceTree.own G v).length + ((R.T.children v).length + y) = R.waitPos v + y := by
        rw [← Nat.add_assoc]
        rfl
      rw [hpos]
      match y, hy with
      | 0, h => exact Option.some.inj h ▸ .wait hi
      | 1, h => exact Option.some.inj h ▸ .zero hi
      | 2, h => exact Option.some.inj h ▸ .zeroed hi
      | y + 3, h => exact absurd h (by simp [ReduceTree.reset])
  · unfold outer at hx
    split_ifs at hx with hr
    · exact absurd hx (by simp)
    rw [length_inner]
    match x, hx with
    | 0, h => exact Option.some.inj h ▸ .clear hr
    | 1, h => exact Option.some.inj h ▸ .ctsZero hr
    | 2, h => exact Option.some.inj h ▸ .ctsZeroed hr
    | 3, h => exact Option.some.inj h ▸ .send hr
    | 4, h => exact Option.some.inj h ▸ .sendWait hr
    | 5, h => exact Option.some.inj h ▸ .fence hr
    | 6, h => exact Option.some.inj h ▸ .add hr
    | x + 7, h => exact absurd h (by simp [ReduceTree.reset, contribute])

/-! ## The protocol with something behind it -/

variable (R G) in
/-- the members execute the protocol, and then `tail` -/
def machine {α : Type*} (op : α → α → α) (tail : ℕ → List Instr) : Machine α :=
  once G.A.members op fun v => R.node G v ++ tail v

variable (R G) in
/-- the tree is one of the members, the words of a node have one use each, and `tail` leaves them alone -/
structure Fits (tail : ℕ → List Instr) : Prop where
  nodes : ∀ v, v ∈ G.A.members ↔ v ∈ R.T.nodes
  cts : R.cts = 1 ∨ (R.cts = 0 ∧ ∀ v, v ≠ R.T.root → R.T.children v = [])
  word : ∀ v ∈ G.A.members, ∀ ins ∈ tail v, ins.word ≠ some 0 ∧ ins.word ≠ some 1
  sends : ∀ v ∈ G.A.members, ∀ ins ∈ tail v, ins.silent = true ∨ ins.dest ≠ none
  atomic : ∀ v ∈ G.A.members, ∀ ins ∈ tail v, ∀ dst src len pe, ins ≠ .atomicv dst src len pe

section
variable {α : Type*} {op : α → α → α} {tail : ℕ → List Instr} (F : R.Fits G tail)

/-- where the clear to send of a node comes from -/
def ctsOf (R : Plan) (v : ℕ) : ℕ := 3 + (R.T.children (R.T.parent v)).idxOf v

/-- the counter of a node -/
def counter (R : Plan) (v : ℕ) : Ledger :=
  ⟨v, 0, (R.T.children v).toFinset.image fun c => (c, R.addPos c), fun _ => 1, some (v, R.waitPos v + 1)⟩

/-- the word by which a node is told that it may send -/
def flag (R : Plan) (v : ℕ) : Flag := ⟨v, R.cts, (R.T.parent v, R.ctsOf v), (v, R.upPos v + 1)⟩

theorem card_adds {v : ℕ} (hv : v ∈ R.T.nodes) : (R.counter v).adds.card = (R.T.children v).length := by
  have hinj : Function.Injective fun c => (c, R.addPos c) := fun c c' h => (Prod.ext_iff.mp h).1
  exact (Finset.card_image_of_injective _ hinj).trans (List.toFinset_card_of_nodup (R.T.nodup v hv))

theorem mem_adds {v c : ℕ} : (c, R.addPos c) ∈ (R.counter v).adds ↔ c ∈ R.T.children v := by
  rw [counter, Finset.mem_image]
  constructor
  · rintro ⟨c', hc', heq⟩
    obtain rfl : c' = c := (Prod.ext_iff.mp heq).1
    exact List.mem_toFinset.mp hc'
  · exact fun hc => ⟨c, List.mem_toFinset.mpr hc, rfl⟩

theorem getElem_idxOf {v : ℕ} (hv : v ∈ R.T.nodes) (hr : v ≠ R.T.root) :
    (R.T.children (R.T.parent v))[(R.T.children (R.T.parent v)).idxOf v]? = some v := by
  have hmem := R.T.mem_children_parent hv hr
  rw [List.getElem?_eq_getElem (List.idxOf_lt_length_of_mem hmem), List.getElem_idxOf]

theorem idxOf_eq {v i c : ℕ} (hv : v ∈ R.T.nodes) (h : (R.T.children v)[i]? = some c) :
    (R.T.children v).idxOf c = i := by
  obtain ⟨hi, rfl⟩ := List.getElem?_eq_some_iff.mp h
  exact (R.T.nodup v hv).idxOf_getElem i hi

include F

theorem prog_of {v t : ℕ} {ins : Instr} (hv : v ∈ R.T.nodes) (h : R.CodeAt G v t ins) :
    (R.machine G op tail).prog v t = some ins := by
  simp only [machine, once, if_pos ((F.nodes v).mpr hv)]
  exact getElem?_append_of_left h.getElem

theorem prog_tail {v : ℕ} (hv : v ∈ R.T.nodes) (x : ℕ) :
    (R.machine G op tail).prog v (R.off v + x) = (tail v)[x]? := by
  simp only [machine, once, if_pos ((F.nodes v).mpr hv)]
  rw [← length_node (G := G), List.getElem?_append_right (by omega), Nat.add_sub_cancel_left]

theorem prog_cases {v t : ℕ} {ins : Instr} (h : (R.machine G op tail).prog v t = some ins) :
    v ∈ R.T.nodes ∧ (R.CodeAt G v t ins ∨ ∃ x, t = R.off v + x ∧ (tail v)[x]? = some ins) := by
  simp only [machine, once] at h
  split_ifs at h with hv
  refine ⟨(F.nodes v).mp hv, ?_⟩
  rw [← length_node (G := G)]
  exact (getElem?_append_cases h).imp_left codeAt_of_getElem

/-- before the broadcast there is the protocol -/
theorem codeAt_of_lt {v t : ℕ} {ins : Instr} (h : (R.machine G op tail).prog v t = some ins) (ht : t < R.off v) :
    v ∈ R.T.nodes ∧ R.CodeAt G v t ins := by
  obtain ⟨hv, hat | ⟨x, rfl, -⟩⟩ := prog_cases F h
  · exact ⟨hv, hat⟩
  · omega

theorem codeAt_inj {v t : ℕ} {ins ins' : Instr} (hv : v ∈ R.T.nodes)
    (h : (R.machine G op tail).prog v t = some ins) (h' : R.CodeAt G v t ins') : ins' = ins :=
  Option.some.inj ((prog_of F hv h').symm.trans h)

/-- the words of the protocol are written by the protocol -/
theorem codeAt_of_word {v t w : ℕ} {ins : Instr} (h : (R.machine G op tail).prog v t = some ins)
    (hw : ins.word = some w) (hlt : w < 2) : v ∈ R.T.nodes ∧ R.CodeAt G v t ins := by
  obtain ⟨hv, hat | ⟨x, -, hx⟩⟩ := prog_cases F h
  · exact ⟨hv, hat⟩
  · obtain ⟨h0, h1⟩ := F.word v ((F.nodes v).mpr hv) ins (List.mem_of_getElem? hx)
    rw [hw] at h0 h1
    interval_cases w
    · exact absurd rfl h0
    · exact absurd rfl h1

/-- nobody computes on its own memory -/
theorem effect_eq {v t : ℕ} {ins : Instr} (h : (R.machine G op tail).prog v t = some ins) (s : St α) :
    (R.machine G op tail).effect s v ins = s := by
  obtain ⟨hv, hat | ⟨x, -, hx⟩⟩ := prog_cases F h
  · cases hat <;> rfl
  · rcases F.sends v ((F.nodes v).mpr hv) ins (List.mem_of_getElem? hx) with hs | hd
    · exact effect_silent _ s v hs
    · cases ins with
      | memcpy => exact absurd rfl hd
      | reduceLocal => exact absurd rfl hd
      | store => exact absurd rfl hd
      | _ => rfl

omit F in
theorem Fits.cts_lt (F : R.Fits G tail) : R.cts < 2 := by
  rcases F.cts with h | ⟨h, -⟩ <;> omega

/-- a node whose counter is in use has another word for the clear to send -/
theorem not_both {v : ℕ} (hi : R.Inner v) (hr : v ≠ R.T.root) : R.cts ≠ 0 := by
  intro h0
  rcases F.cts with h1 | ⟨-, hleaf⟩
  · omega
  · rcases hi with h | h
    · exact hr h
    · exact h (hleaf v hr)

theorem counter_of {v : ℕ} (hv : v ∈ R.T.nodes) (hi : R.Inner v) : (R.counter v).Of (R.machine G op tail) := by
  refine ⟨fun u i x hp => ?_, fun u i x hp => ?_, fun p hp => ?_, fun p hp => ?_, fun i x hp => ?_⟩
  · obtain ⟨hu, hat⟩ := codeAt_of_word F hp rfl Nat.two_pos
    cases hat with
    | add hr => exact ⟨mem_adds.mpr (R.T.mem_children_parent hu hr), rfl⟩
  · obtain ⟨hu, hat⟩ := codeAt_of_word F hp rfl Nat.two_pos
    generalize hw : (R.counter v).cell = w at hat
    cases hat with
    | cts j c hc =>
      exact absurd hw.symm (not_both F hi (R.T.child_ne_root hu (List.mem_of_getElem? hc)))
    | zero _ => exact ⟨rfl, rfl⟩
    | ctsZero hr => exact absurd hw.symm (not_both F hi hr)
  · obtain ⟨c, hc, rfl⟩ := Finset.mem_image.mp hp
    have hc := List.mem_toFinset.mp hc
    have h : (R.machine G op tail).prog c (R.addPos c) = _ :=
      prog_of F (R.T.child_mem hv hc) (.add (R.T.child_ne_root hv hc))
    rwa [R.T.parent_child hv hc] at h
  · obtain rfl := Option.some.inj hp
    exact prog_of F hv (.zero hi)
  · obtain ⟨-, hat⟩ := codeAt_of_word F hp rfl Nat.two_pos
    cases hat

theorem flag_of {v : ℕ} (hv : v ∈ R.T.nodes) (hr : v ≠ R.T.root) : (R.flag v).Of (R.machine G op tail) := by
  refine ⟨fun u i x hp => ?_, fun u i x hp => ?_, ?_, ?_, fun i x hp => ?_⟩
  · obtain ⟨hu, hat⟩ := codeAt_of_word F hp rfl F.cts_lt
    generalize hw : (R.flag v).cell = w at hat
    generalize hpe : (R.flag v).pe = pe at hat
    cases hat with
    | add h0 =>
      have hmem := R.T.mem_children_parent hu h0
      rw [← hpe] at hmem
      exact not_both F (.inr (List.ne_nil_of_mem hmem)) hr hw
  · obtain ⟨hu, hat⟩ := codeAt_of_word F hp rfl F.cts_lt
    generalize hw : (R.flag v).cell = w at hat
    generalize hpe : (R.flag v).pe = pe at hat
    cases hat with
    | cts j _ hc =>
      subst hpe
      have hpar : R.T.parent v = u := R.T.parent_child hu (List.mem_of_getElem? hc)
      have hidx : (R.T.children u).idxOf v = j := idxOf_eq hu hc
      exact .inl ⟨by simp only [flag, ctsOf, hpar, hidx], rfl⟩
    | zero hi =>
      obtain rfl : v = u := hpe
      exact absurd hw (not_both F hi hr)
    | ctsZero _ =>
      obtain rfl : v = u := hpe
      exact .inr ⟨rfl, rfl⟩
  · exact prog_of F (R.T.parent_mem v hv) (.cts _ v (getElem_idxOf hv hr))
  · exact prog_of F hv (.ctsZero hr)
  · obtain ⟨-, hat⟩ := codeAt_of_word F hp rfl F.cts_lt
    cases hat

/-! ## Counters and clear-to-send words -/

variable (R) in
/-- what the words hold, and who is past a wait got what it waited for -/
structure Words (s : St α) : Prop where
  counter : ∀ v ∈ R.T.nodes, R.Inner v → (R.counter v).Holds s
  flag : ∀ v ∈ R.T.nodes, v ≠ R.T.root → (R.flag v).Holds s
  waited : ∀ v ∈ R.T.nodes, R.Inner v → R.waitPos v < s.pc v → ∀ c ∈ R.T.children v, s.done c (R.addPos c) 0 = true
  zeroed : ∀ v ∈ R.T.nodes, R.T.children v ≠ [] → R.waitPos v + 2 < s.pc v → (R.counter v).Cleared s
  clear : ∀ v ∈ R.T.nodes, v ≠ R.T.root → R.upPos v < s.pc v → (R.flag v).IsSet s
  ctsZeroed : ∀ v ∈ R.T.nodes, v ≠ R.T.root → R.upPos v + 2 < s.pc v → (R.flag v).Cleared s

variable {s : St α}

omit F in
theorem words_init {c0 : ℕ → ℕ → ℤ} (m0 : ℕ → Loc → α) (h0 : ∀ v ∈ R.T.nodes, ∀ w, c0 v w = 0) :
    R.Words (init c0 m0) := by
  refine ⟨fun v hv _ => Ledger.holds_init m0 (h0 v hv 0), fun v hv _ => Flag.holds_init m0 (h0 v hv _), ?_, ?_, ?_, ?_⟩
  · exact fun v _ _ hlt => absurd hlt (Nat.not_lt_zero _)
  · exact fun v _ _ hlt => absurd hlt (Nat.not_lt_zero _)
  · exact fun v _ _ hlt => absurd hlt (Nat.not_lt_zero _)
  · exact fun v _ _ hlt => absurd hlt (Nat.not_lt_zero _)

omit F in
/-- a counter is cleared after its wait -/
theorem cleared_pc (hh : (R.machine G op tail).Hist s) {v : ℕ} (hc : (R.counter v).Cleared s) :
    R.waitPos v + 1 < s.pc v := by
  obtain ⟨p, hp, hd⟩ := hc
  obtain rfl := Option.some.inj hp
  exact (hh.doneIssued _ _ _ hd).1

omit F in
theorem Words.last (h : R.Words s) (hh : (R.machine G op tail).Hist s) {v : ℕ} (hv : v ∈ R.T.nodes) (hi : R.Inner v)
    (hc : (R.counter v).Cleared s) : ∀ p ∈ (R.counter v).adds, s.done p.1 p.2 0 = true := by
  intro p hp
  have hlt := cleared_pc hh hc
  obtain ⟨c, hcm, rfl⟩ := Finset.mem_image.mp hp
  exact h.waited v hv hi (by omega) c (List.mem_toFinset.mp hcm)

omit F in
theorem Words.last_flag (h : R.Words s) (hh : (R.machine G op tail).Hist s) {v : ℕ} (hv : v ∈ R.T.nodes)
    (hr : v ≠ R.T.root) (hc : (R.flag v).Cleared s) : (R.flag v).IsSet s := by
  have hlt : R.upPos v + 1 < s.pc v := (hh.doneIssued _ _ _ hc).1
  exact h.clear v hv hr (by omega)

omit F in
theorem Words.pass_wait (h : R.Words s) (hh : (R.machine G op tail).Hist s) {v : ℕ} (hv : v ∈ R.T.nodes)
    (hi : R.Inner v) (hpc : s.pc v = R.waitPos v) (he : s.cell v 0 = (R.T.children v).length) {c : ℕ}
    (hc : c ∈ R.T.children v) : s.done c (R.addPos c) 0 = true := by
  have hnot : ¬ (R.counter v).Cleared s := by
    intro hcl
    have := cleared_pc hh hcl
    omega
  have hcell := (h.counter v hv hi).cell
  rw [if_neg hnot] at hcell
  have hsum : ((R.counter v).adds.card : ℤ) ≤ (R.counter v).sum s := by
    rw [card_adds hv, ← hcell]
    exact he.ge
  exact Ledger.all_done (fun _ _ => rfl) hsum _ (mem_adds.mpr hc)

omit F in
theorem Words.pass_zero (h : R.Words s) {v : ℕ} (hv : v ∈ R.T.nodes) (hne : R.T.children v ≠ [])
    (hpc : s.pc v = R.waitPos v + 2) (he : s.cell v 0 = 0) : (R.counter v).Cleared s := by
  by_contra hnot
  have hi : R.Inner v := .inr hne
  have hall : ∀ p ∈ (R.counter v).adds, s.done p.1 p.2 0 = true := by
    intro p hp
    obtain ⟨c, hc, rfl⟩ := Finset.mem_image.mp hp
    exact h.waited v hv hi (by omega) c (List.mem_toFinset.mp hc)
  have hcell := (h.counter v hv hi).cell
  rw [if_neg hnot, Ledger.sum_eq_card (fun _ _ => rfl) hall, card_adds hv] at hcell
  have hzero : ((R.T.children v).length : ℤ) = 0 := hcell.symm.trans he
  have hpos := List.length_pos_of_ne_nil hne
  omega

theorem Words.exec (h : R.Words s) (hh : (R.machine G op tail).Hist s) {v : ℕ} {ins : Instr}
    (hp : (R.machine G op tail).prog v (s.pc v) = some ins) (he : (R.machine G op tail).Enabled s v ins) :
    R.Words (advance ((R.machine G op tail).effect s v ins) v) := by
  have heff := effect_eq F hp s
  -- what a node passes in this step
  have hpass : ∀ u ∈ R.T.nodes, ∀ t ins', R.CodeAt G u t ins' → t < (advance s v).pc u →
      t < s.pc u ∨ (u = v ∧ t = s.pc u ∧ ins' = ins) := by
    intro u hu t ins' hat ht
    by_cases hv : u = v
    · subst hv
      rw [advance_pc_self] at ht
      rcases Nat.lt_succ_iff_lt_or_eq.mp ht with hlt | rfl
      · exact .inl hlt
      · exact .inr ⟨rfl, rfl, codeAt_inj F hu hp hat⟩
    · rw [advance_pc_other _ hv] at ht
      exact .inl ht
  refine ⟨fun u hu hi => (h.counter u hu hi).exec (counter_of F hu hi) hp,
    fun u hu hr => (h.flag u hu hr).exec (flag_of F hu hr) hp, ?_, ?_, ?_, ?_⟩
  · rw [heff]
    intro u hu hi hlt c hc
    rcases hpass u hu _ _ (.wait hi) hlt with hlt | ⟨rfl, heq, rfl⟩
    · exact h.waited u hu hi hlt c hc
    · exact h.pass_wait hh hu hi heq.symm he hc
  · rw [heff]
    intro u hu hne hlt
    rcases hpass u hu _ _ (.zeroed (.inr hne)) hlt with hlt | ⟨rfl, heq, rfl⟩
    · exact h.zeroed u hu hne hlt
    · exact h.pass_zero hu hne heq.symm he
  · rw [heff]
    intro u hu hr hlt
    rcases hpass u hu _ _ (.clear hr) hlt with hlt | ⟨rfl, heq, rfl⟩
    · exact h.clear u hu hr hlt
    · exact (h.flag u hu hr).set_of_ne he
  · rw [heff]
    intro u hu hr hlt
    rcases hpass u hu _ _ (.ctsZeroed hr) hlt with hlt | ⟨rfl, heq, rfl⟩
    · exact h.ctsZeroed u hu hr hlt
    · exact (h.flag u hu hr).cleared_of_eq (h.clear u hu hr (by omega)) he

omit F in
theorem Words.capture (h : R.Words s) (v i j : ℕ) (a : α) : R.Words (record s v i j a) :=
  ⟨fun u hu hi => (h.counter u hu hi).capture v i j a, fun u hu hr => (h.flag u hu hr).capture v i j a, h.waited,
    h.zeroed, h.clear, h.ctsZeroed⟩

theorem Words.deliver (h : R.Words s) (hh : (R.machine G op tail).Hist s) {v t j : ℕ} {ins : Instr}
    (hp : (R.machine G op tail).prog v t = some ins) (hd : (R.machine G op tail).Deliverable s v t j) :
    R.Words (mark ((R.machine G op tail).arrive s v t j ins) v t j) := by
  have hlat := (R.machine G op tail).later_deliver s v t j ins
  refine ⟨fun u hu hi => (h.counter u hu hi).deliver (counter_of F hu hi) hp hd (h.last hh hu hi),
    fun u hu hr => (h.flag u hu hr).deliver (flag_of F hu hr) hp hd (h.last_flag hh hu hr), ?_, ?_, ?_, ?_⟩
  · intro u hu hi hlt c hc
    rw [mark_pc, arrive_pc] at hlt
    exact hlat.done _ _ _ (h.waited u hu hi hlt c hc)
  · intro u hu hne hlt
    rw [mark_pc, arrive_pc] at hlt
    obtain ⟨p, hp, hdone⟩ := h.zeroed u hu hne hlt
    exact ⟨p, hp, hlat.done _ _ _ hdone⟩
  · intro u hu hr hlt
    rw [mark_pc, arrive_pc] at hlt
    exact hlat.done _ _ _ (h.clear u hu hr hlt)
  · intro u hu hr hlt
    rw [mark_pc, arrive_pc] at hlt
    exact hlat.done _ _ _ (h.ctsZeroed u hu hr hlt)

/-! ## The order of the contributions -/

omit F in
theorem upPos_inner {v : ℕ} (hi : R.Inner v) : R.upPos v = R.waitPos v + 3 := if_pos hi

/-- who is past its quiet has its own contribution in its target -/
theorem stored_own (hh : (R.machine G op tail).Hist s) {v : ℕ} (hv : v ∈ R.T.nodes) (hi : R.Inner v) (hpc : 2 < s.pc v)
    {j : ℕ} (hj : j < G.count) : s.done v 0 j = true := by
  refine hh.quieted v 2 (prog_of F hv (.stored hi)) hpc 0 Nat.two_pos j ?_
  rw [partsAt_eq _ (prog_of F hv (.own hi))]
  exact hj

/-- who may send knows that its parent has stored its own contribution -/
theorem Words.stored_parent (h : R.Words s) (hh : (R.machine G op tail).Hist s) {v : ℕ} (hv : v ∈ R.T.nodes)
    (hr : v ≠ R.T.root) (hpc : R.upPos v < s.pc v) {j : ℕ} (hj : j < G.count) : s.done (R.T.parent v) 0 j = true := by
  have hlt : R.ctsOf v < s.pc (R.T.parent v) := (hh.doneIssued _ _ _ (h.clear v hv hr hpc)).1
  have hi : R.Inner (R.T.parent v) := inner_of_child (getElem_idxOf hv hr)
  refine stored_own F hh (R.T.parent_mem v hv) hi ?_ hj
  rw [ctsOf] at hlt
  omega

/-- the contribution of a node arrives before its add -/
theorem applied_of_add (hh : (R.machine G op tail).Hist s) {v : ℕ} (hv : v ∈ R.T.nodes) (hr : v ≠ R.T.root)
    (h : s.done v (R.addPos v) 0 = true) {j : ℕ} (hj : j < G.count) : s.done v (R.sendPos v) j = true := by
  have hsend : (R.machine G op tail).prog _ _ = some _ := prog_of F hv (.send hr)
  refine hh.fenced _ _ _ h (R.upPos v + 5) (by rw [addPos]; omega) (prog_of F hv (.fence hr)) _
    (by rw [sendPos]; omega) ?_ j ?_
  · rw [destAt_eq _ hsend, destAt_eq _ (prog_of F hv (.add hr))]
    rfl
  · rw [partsAt_eq _ hsend]
    exact hj

/-- who is past the wait for its children has their contributions -/
theorem Words.applied (h : R.Words s) (hh : (R.machine G op tail).Hist s) {v c : ℕ} (hv : v ∈ R.T.nodes)
    (hc : c ∈ R.T.children v) (hpc : R.waitPos v < s.pc v) {j : ℕ} (hj : j < G.count) :
    s.done c (R.sendPos c) j = true := by
  have hadd := h.waited v hv (.inr (List.ne_nil_of_mem hc)) hpc c hc
  exact applied_of_add F hh (R.T.child_mem hv hc) (R.T.child_ne_root hv hc) hadd hj

omit F in
/-- once the root is through with the protocol, everybody is -/
theorem Words.all_through (h : R.Words s) (hh : (R.machine G op tail).Hist s) (hpc : R.off R.T.root ≤ s.pc R.T.root) :
    ∀ v ∈ R.T.nodes, R.off v ≤ s.pc v := by
  refine R.T.down hpc ?_
  intro v hv hr hle
  have hp := R.T.parent_mem v hv
  have hc := R.T.mem_children_parent hv hr
  have hi : R.Inner (R.T.parent v) := .inr (List.ne_nil_of_mem hc)
  have hlt : R.waitPos (R.T.parent v) < s.pc (R.T.parent v) := by
    rw [off, upPos_inner hi] at hle
    omega
  have hadd : R.addPos v < s.pc v := (hh.doneIssued _ _ _ (h.waited _ hp hi hlt v hc)).1
  rw [off, if_neg hr]
  rw [addPos] at hadd
  omega

/-- and all of it has arrived -/
theorem Words.all_done (hedge : R.T.children R.T.root ≠ []) (h : R.Words s) (hh : (R.machine G op tail).Hist s)
    (hpc : R.off R.T.root ≤ s.pc R.T.root) {v : ℕ} (hv : v ∈ R.T.nodes) {t : ℕ} (ht : t < R.off v) {j : ℕ}
    (hj : j < (R.machine G op tail).partsAt v t) : s.done v t j = true := by
  have hall := h.all_through hh hpc
  -- everybody is past what it does
  have hup : ∀ u ∈ R.T.nodes, u ≠ R.T.root → R.upPos u + 7 ≤ s.pc u := by
    intro u hu hr
    have hle := hall u hu
    rwa [off, if_neg hr] at hle
  have hin : ∀ u ∈ R.T.nodes, R.Inner u → R.waitPos u + 3 ≤ s.pc u := by
    intro u hu hi
    have hle := hall u hu
    rw [off, upPos_inner hi] at hle
    omega
  have hadd : ∀ u ∈ R.T.nodes, u ≠ R.T.root → s.done u (R.addPos u) 0 = true := by
    intro u hu hr
    have hc := R.T.mem_children_parent hu hr
    have hi : R.Inner (R.T.parent u) := .inr (List.ne_nil_of_mem hc)
    have hle := hin _ (R.T.parent_mem u hu) hi
    exact h.waited _ (R.T.parent_mem u hu) hi (by omega) u hc
  cases hp : (R.machine G op tail).prog v t with
  | none =>
    rw [partsAt, hp] at hj
    exact absurd hj (Nat.not_lt_zero _)
  | some ins =>
    obtain ⟨-, hat⟩ := codeAt_of_lt F hp ht
    rw [partsAt_eq _ hp] at hj
    cases hat with
    | own hi =>
      have hle := hin v hv hi
      refine stored_own F hh hv hi ?_ hj
      rw [waitPos] at hle
      omega
    | cts i c hc =>
      obtain rfl := Nat.lt_one_iff.mp hj
      have hcm := List.mem_of_getElem? hc
      have hr := R.T.child_ne_root hv hcm
      have hle := hup c (R.T.child_mem hv hcm) hr
      have hset := h.clear c (R.T.child_mem hv hcm) hr (by omega)
      rw [Flag.IsSet, Plan.flag, ctsOf, R.T.parent_child hv hcm, idxOf_eq hv hc] at hset
      exact hset
    | zero hi =>
      obtain rfl := Nat.lt_one_iff.mp hj
      have hne : R.T.children v ≠ [] := by
        rcases hi with rfl | hne
        · exact hedge
        · exact hne
      have hle := hin v hv hi
      obtain ⟨p, hpe, hd⟩ := h.zeroed v hv hne (by omega)
      obtain rfl := Option.some.inj hpe
      exact hd
    | ctsZero hr =>
      obtain rfl := Nat.lt_one_iff.mp hj
      have hle := hup v hv hr
      exact h.ctsZeroed v hv hr (by omega)
    | send hr => exact applied_of_add F hh hv hr (hadd v hv hr) hj
    | add hr =>
      obtain rfl := Nat.lt_one_iff.mp hj
      exact hadd v hv hr
    | _ => exact absurd hj (Nat.not_lt_zero _)

/-! ## What the targets hold -/

variable (R) in
/-- the PEs whose values are in element j of the target of v -/
noncomputable def got (s : St α) (v j : ℕ) : Finset ℕ :=
  insert v (((R.T.children v).toFinset.filter fun c => s.done c (R.sendPos c) j = true).biUnion R.T.subtree)

section
omit F
variable {s' : St α} {v j : ℕ}

theorem got_congr (h : ∀ c ∈ R.T.children v, s'.done c (R.sendPos c) j = true ↔ s.done c (R.sendPos c) j = true) :
    R.got s' v j = R.got s v j := by
  have hfilter : ((R.T.children v).toFinset.filter fun c => s'.done c (R.sendPos c) j = true) =
      (R.T.children v).toFinset.filter fun c => s.done c (R.sendPos c) j = true :=
    Finset.filter_congr fun c hc => h c (List.mem_toFinset.mp hc)
  rw [got, got, hfilter]

theorem got_none (h : ∀ c ∈ R.T.children v, s.done c (R.sendPos c) j ≠ true) : R.got s v j = {v} := by
  rw [got, Finset.filter_false_of_mem fun c hc => h c (List.mem_toFinset.mp hc)]
  rfl

theorem got_all (hv : v ∈ R.T.nodes) (h : ∀ c ∈ R.T.children v, s.done c (R.sendPos c) j = true) :
    R.got s v j = R.T.subtree v := by
  rw [got, Finset.filter_true_of_mem fun c hc => h c (List.mem_toFinset.mp hc), ParentTree.subtree_eq hv]

/-- one more contribution -/
theorem got_insert {c : ℕ} (hc : c ∈ R.T.children v)
    (h : ∀ b, s'.done b (R.sendPos b) j = true ↔ b = c ∨ s.done b (R.sendPos b) j = true) :
    R.got s' v j = R.got s v j ∪ R.T.subtree c := by
  have hfilter : ((R.T.children v).toFinset.filter fun b => s'.done b (R.sendPos b) j = true) =
      insert c ((R.T.children v).toFinset.filter fun b => s.done b (R.sendPos b) j = true) := by
    ext b
    simp only [Finset.mem_filter, Finset.mem_insert, List.mem_toFinset, h]
    constructor
    · rintro ⟨hb, rfl | hd⟩
      · exact .inl rfl
      · exact .inr ⟨hb, hd⟩
    · rintro (rfl | ⟨hb, hd⟩)
      · exact ⟨hc, .inl rfl⟩
      · exact ⟨hb, .inr hd⟩
  rw [got, got, hfilter, Finset.biUnion_insert, Finset.insert_union, Finset.union_comm]

/-- a contribution that has not arrived is of other PEs -/
theorem got_disjoint {c : ℕ} (hv : v ∈ R.T.nodes) (hc : c ∈ R.T.children v) (h : s.done c (R.sendPos c) j = false) :
    Disjoint (R.got s v j) (R.T.subtree c) := by
  rw [got, Finset.disjoint_insert_left, Finset.disjoint_biUnion_left]
  refine ⟨ParentTree.notMem_subtree_child hv hc, fun b hb => ?_⟩
  obtain ⟨hbm, hd⟩ := Finset.mem_filter.mp hb
  refine ParentTree.disjoint_subtree hv (List.mem_toFinset.mp hbm) hc ?_
  rintro rfl
  exact absurd (hd.symm.trans h) Bool.noConfusion

end

variable (R G op) in
/-- the values before the broadcast: what has been read from buffers, the sources, and the targets -/
structure Values (m0 : ℕ → Loc → α) (s : St α) : Prop where
  own : ∀ v ∈ R.T.nodes, R.Inner v → ∀ j a, s.cap v 0 j = some a → a = m0 v (.sym (G.source + j))
  sent : ∀ v ∈ R.T.nodes, v ≠ R.T.root → ∀ j a, s.cap v (R.sendPos v) j = some a →
    Red op (fun x => m0 x (.sym (G.source + j))) (R.T.subtree v) a
  source : ∀ v ∈ R.T.nodes, ∀ j < G.count, (G.target = G.source → R.Inner v → s.done v 0 j = false) →
    s.mem v (.sym (G.source + j)) = m0 v (.sym (G.source + j))
  target : ∀ v ∈ R.T.nodes, R.Inner v → ∀ j < G.count, s.done v 0 j = true →
    Red op (fun x => m0 x (.sym (G.source + j))) (R.got s v j) (s.mem v (.sym (G.target + j)))

variable {m0 : ℕ → Loc → α}

omit F in
theorem values_init (c0 : ℕ → ℕ → ℤ) : R.Values G op m0 (init c0 m0) := by
  refine ⟨?_, ?_, fun _ _ _ _ _ => rfl, ?_⟩
  · exact fun v _ _ j a ha => absurd ha (Option.some_ne_none a).symm
  · exact fun v _ _ j a ha => absurd ha (Option.some_ne_none a).symm
  · exact fun v _ _ j _ hd => absurd hd Bool.noConfusion

/-- who sends has the values of everybody under it -/
theorem Values.complete (h : R.Values G op m0 s) (hw : R.Words s) (hh : (R.machine G op tail).Hist s) {v : ℕ}
    (hv : v ∈ R.T.nodes) (hi : R.Inner v) (hpc : R.waitPos v < s.pc v) {j : ℕ} (hj : j < G.count) :
    Red op (fun x => m0 x (.sym (G.source + j))) (R.T.subtree v) (s.mem v (.sym (G.target + j))) := by
  have hown : s.done v 0 j = true := stored_own F hh hv hi (by rw [waitPos] at hpc; omega) hj
  have hred := h.target v hv hi j hj hown
  rwa [got_all hv fun c hc => hw.applied F hh hv hc hpc hj] at hred

theorem Values.capture (h : R.Values G op m0 s) (hw : R.Words s) (hh : (R.machine G op tail).Hist s) {v t j : ℕ}
    {ins : Instr} {a : α} (hp : (R.machine G op tail).prog v t = some ins) (hpc : t < s.pc v) (hj : j < ins.reads)
    (hn : s.cap v t j = none) (hsrc : OneSided.Machine.source s v j ins = some a) :
    R.Values G op m0 (record s v t j a) := by
  refine ⟨fun w hwn hi k b hb => ?_, fun w hwn hr k b hb => ?_, h.source, h.target⟩
  · rcases (record_cap ..).mp hb with ⟨rfl, rfl, rfl, rfl⟩ | ⟨-, hold⟩
    · obtain rfl := codeAt_inj F hwn hp (.own hi)
      -- what has not been read has not been delivered
      have hnd : s.done w 0 k = false := by
        by_contra hd
        have hsome := hh.doneCap w 0 k (by simpa using hd) (by rw [readsAt_eq _ hp]; exact hj)
        rw [hn] at hsome
        exact absurd hsome Bool.noConfusion
      exact (Option.some.inj hsrc).symm.trans (h.source w hwn k hj fun _ _ => hnd)
    · exact h.own w hwn hi k b hold
  · rcases (record_cap ..).mp hb with ⟨rfl, rfl, rfl, rfl⟩ | ⟨-, hold⟩
    · obtain rfl := codeAt_inj F hwn hp (.send hr)
      have ha : s.mem w (.sym (R.sendBuf G w + k)) = a := Option.some.inj hsrc
      rw [← ha]
      by_cases hleaf : R.T.children w = []
      · have hnot : ¬ R.Inner w := fun hi => hi.elim hr fun hne => hne hleaf
        have hsub : R.T.subtree w = {w} := by
          rw [ParentTree.subtree_eq hwn, hleaf]
          rfl
        rw [sendBuf, if_pos hleaf, h.source w hwn k hj fun _ hi => absurd hi hnot, hsub]
        exact Red.single (f := fun x => m0 x (.sym (G.source + k))) w
      · have hi : R.Inner w := .inr hleaf
        rw [sendBuf, if_neg hleaf]
        refine h.complete F hw hh hwn hi ?_ hj
        rw [sendPos, upPos_inner hi] at hpc
        omega
    · exact h.sent w hwn hr k b hold

section
variable {s' : St α} {v t j : ℕ} {ins : Instr} (hp : (R.machine G op tail).prog v t = some ins)
  (hdone : ∀ v' t' k, s'.done v' t' k = true ↔ (v' = v ∧ t' = t ∧ k = j) ∨ s.done v' t' k = true)
include hp hdone

/-- an own contribution is delivered by its own put -/
theorem done_own {w k : ℕ} (hwn : w ∈ R.T.nodes) (hi : R.Inner w)
    (hne : ins ≠ .putNb G.target (.sym G.source) G.count w ∨ ¬ (w = v ∧ k = j)) :
    s'.done w 0 k = true ↔ s.done w 0 k = true := by
  rw [hdone]
  refine ⟨fun hd => hd.resolve_left ?_, .inr⟩
  rintro ⟨rfl, rfl, rfl⟩
  rcases hne with hins | hsame
  · exact hins (codeAt_inj F hwn hp (.own hi)).symm
  · exact hsame ⟨rfl, rfl⟩

/-- the contributions in a target change with the atomics of a child -/
theorem got_eq {w k : ℕ} (hwn : w ∈ R.T.nodes)
    (hne : ins ≠ .atomicv G.target (.sym (R.sendBuf G v)) G.count w ∨ k ≠ j) : R.got s' w k = R.got s w k := by
  refine got_congr fun c hc => ?_
  rw [hdone]
  refine ⟨fun hd => hd.resolve_left ?_, .inr⟩
  rintro ⟨rfl, rfl, rfl⟩
  rcases hne with hins | hk
  · have hat := codeAt_inj F (R.T.child_mem hwn hc) hp (.send (R.T.child_ne_root hwn hc))
    rw [R.T.parent_child hwn hc] at hat
    exact hins hat.symm
  · exact hk rfl

/-- a message that is not for a target -/
theorem Values.deliver_word (h : R.Values G op m0 s) (hcap : s'.cap = s.cap) (hmem : s'.mem = s.mem)
    (hput : ∀ w, ins ≠ .putNb G.target (.sym G.source) G.count w)
    (hatom : ∀ w, ins ≠ .atomicv G.target (.sym (R.sendBuf G v)) G.count w) : R.Values G op m0 s' := by
  refine ⟨by rw [hcap]; exact h.own, by rw [hcap]; exact h.sent, fun w hwn k hk hcond => ?_,
    fun w hwn hi k hk hd => ?_⟩
  · rw [hmem]
    refine h.source w hwn k hk fun heq hi => ?_
    rw [← Bool.not_eq_true, ← done_own F hp hdone hwn hi (.inl (hput w)), Bool.not_eq_true]
    exact hcond heq hi
  · rw [hmem, got_eq F hp hdone hwn (.inl (hatom w))]
    exact h.target w hwn hi k hk ((done_own F hp hdone hwn hi (.inl (hput w))).mp hd)

end

omit F in
/-- an element of the target is an element of the source only in place -/
theorem in_place (hsep : G.Separate) {j k : ℕ} (hj : j < G.count) (hk : k < G.count)
    (heq : Loc.sym (G.source + k) = .sym (G.target + j)) : G.target = G.source ∧ k = j := by
  have heq : G.source + k = G.target + j := Loc.sym.inj heq
  rcases hsep with h | h | h <;> omega

/-- the own contribution of a node arrives -/
theorem Values.deliver_own (hsep : G.Separate) (h : R.Values G op m0 s) (hw : R.Words s)
    (hh : (R.machine G op tail).Hist s) {s' : St α} {v j : ℕ} {a : α} (hv : v ∈ R.T.nodes) (hi : R.Inner v)
    (hj : j < G.count) (hnd : s.done v 0 j = false) (ha : s.cap v 0 j = some a) (hcap : s'.cap = s.cap)
    (hmem : s'.mem = setLoc s.mem v (.sym (G.target + j)) a)
    (hdone : ∀ v' t' k, s'.done v' t' k = true ↔ (v' = v ∧ t' = 0 ∧ k = j) ∨ s.done v' t' k = true) :
    R.Values G op m0 s' := by
  have hp : (R.machine G op tail).prog v 0 = some _ := prog_of F hv (.own hi)
  have hgot : ∀ w ∈ R.T.nodes, ∀ k, R.got s' w k = R.got s w k := fun w hwn k =>
    got_eq F hp hdone hwn (.inl Instr.noConfusion)
  refine ⟨by rw [hcap]; exact h.own, by rw [hcap]; exact h.sent, fun w hwn k hk hcond => ?_,
    fun w hwn hiw k hk hd => ?_⟩
  · rw [hmem, setLoc_apply]
    split_ifs with hsame
    · -- in place: the element has just arrived
      obtain ⟨rfl, heq⟩ := hsame
      obtain ⟨hplace, rfl⟩ := in_place hsep hj hk heq
      have hnot := hcond hplace hi
      rw [(hdone _ _ _).mpr (.inl ⟨rfl, rfl, rfl⟩)] at hnot
      exact absurd hnot Bool.noConfusion
    · refine h.source w hwn k hk fun heq hiw => ?_
      by_contra hd
      have hd' := (hdone w 0 k).mpr (.inr (by simpa using hd))
      exact absurd (hd'.symm.trans (hcond heq hiw)) Bool.noConfusion
  · rw [hmem, setLoc_apply, hgot w hwn]
    split_ifs with hsame
    · obtain ⟨rfl, heq⟩ := hsame
      obtain rfl : k = j := Nat.add_left_cancel (Loc.sym.inj heq)
      -- nobody has sent anything before it
      have hnone : ∀ c ∈ R.T.children w, s.done c (R.sendPos c) k ≠ true := by
        intro c hc hd
        have hlt : R.sendPos c < s.pc c := (hh.doneIssued _ _ _ hd).1
        rw [sendPos] at hlt
        have hst := hw.stored_parent F hh (R.T.child_mem hwn hc) (R.T.child_ne_root hwn hc) (by omega) hk
        rw [R.T.parent_child hwn hc, hnd] at hst
        exact absurd hst Bool.noConfusion
      rw [got_none hnone, h.own w hwn hi k a ha]
      exact Red.single (f := fun x => m0 x (.sym (G.source + k))) w
    · have hne : ¬ (w = v ∧ k = j) := by
        rintro ⟨rfl, rfl⟩
        exact hsame ⟨rfl, rfl⟩
      exact h.target w hwn hiw k hk ((done_own F hp hdone hwn hiw (.inr hne)).mp hd)

/-- the contribution of a child arrives -/
theorem Values.deliver_send (hsep : G.Separate) (h : R.Values G op m0 s) (hw : R.Words s)
    (hh : (R.machine G op tail).Hist s) {s' : St α} {v j : ℕ} {a : α} (hv : v ∈ R.T.nodes) (hr : v ≠ R.T.root)
    (hj : j < G.count) (hpc : R.sendPos v < s.pc v) (hnd : s.done v (R.sendPos v) j = false)
    (ha : s.cap v (R.sendPos v) j = some a) (hcap : s'.cap = s.cap)
    (hmem : s'.mem = setLoc s.mem (R.T.parent v) (.sym (G.target + j))
      (op (s.mem (R.T.parent v) (.sym (G.target + j))) a))
    (hdone : ∀ v' t' k, s'.done v' t' k = true ↔ (v' = v ∧ t' = R.sendPos v ∧ k = j) ∨ s.done v' t' k = true) :
    R.Values G op m0 s' := by
  have hp : (R.machine G op tail).prog v (R.sendPos v) = some _ := prog_of F hv (.send hr)
  have hpar := R.T.parent_mem v hv
  have hc := R.T.mem_children_parent hv hr
  have hi : R.Inner (R.T.parent v) := .inr (List.ne_nil_of_mem hc)
  -- the parent has stored its own contribution
  have hown : s.done (R.T.parent v) 0 j = true :=
    hw.stored_parent F hh hv hr (by rw [sendPos] at hpc; omega) hj
  have hsame_own : ∀ w ∈ R.T.nodes, R.Inner w → ∀ k, s'.done w 0 k = true ↔ s.done w 0 k = true :=
    fun w hwn hiw k => done_own F hp hdone hwn hiw (.inl Instr.noConfusion)
  refine ⟨by rw [hcap]; exact h.own, by rw [hcap]; exact h.sent, fun w hwn k hk hcond => ?_,
    fun w hwn hiw k hk hd => ?_⟩
  · rw [hmem, setLoc_apply]
    split_ifs with hsame
    · obtain ⟨rfl, heq⟩ := hsame
      obtain ⟨hplace, rfl⟩ := in_place hsep hj hk heq
      have hnot := hcond hplace hi
      rw [(hsame_own _ hpar hi k).mpr hown] at hnot
      exact absurd hnot Bool.noConfusion
    · refine h.source w hwn k hk fun heq hiw => ?_
      rw [← Bool.not_eq_true, ← hsame_own w hwn hiw k, Bool.not_eq_true]
      exact hcond heq hiw
  · have hd := (hsame_own w hwn hiw k).mp hd
    rw [hmem, setLoc_apply]
    split_ifs with hsame
    · obtain ⟨rfl, heq⟩ := hsame
      obtain rfl : k = j := Nat.add_left_cancel (Loc.sym.inj heq)
      have hnew : ∀ b, s'.done b (R.sendPos b) k = true ↔ b = v ∨ s.done b (R.sendPos b) k = true := by
        intro b
        rw [hdone]
        constructor
        · rintro (⟨rfl, -, -⟩ | hd)
          · exact .inl rfl
          · exact .inr hd
        · rintro (rfl | hd)
          · exact .inl ⟨rfl, rfl, rfl⟩
          · exact .inr hd
      rw [got_insert hc hnew]
      exact .join (h.target _ hwn hi k hk hd) (h.sent v hv hr k a ha) (got_disjoint hwn hc hnd)
    · have hne : Instr.atomicv G.target (.sym (R.sendBuf G v)) G.count (R.T.parent v) ≠
          .atomicv G.target (.sym (R.sendBuf G v)) G.count w ∨ k ≠ j := by
        by_contra hcon
        push Not at hcon
        exact hsame ⟨(Instr.atomicv.inj hcon.1).2.2.2.symm, by rw [hcon.2]⟩
      rw [got_eq F hp hdone hwn hne]
      exact h.target w hwn hiw k hk hd

theorem Values.deliver (hsep : G.Separate) (h : R.Values G op m0 s) (hw : R.Words s)
    (hh : (R.machine G op tail).Hist s) {v t j : ℕ} {ins : Instr}
    (hp : (R.machine G op tail).prog v t = some ins) (hd : (R.machine G op tail).Deliverable s v t j)
    (ht : t < R.off v) : R.Values G op m0 (mark ((R.machine G op tail).arrive s v t j ins) v t j) := by
  have hdone : ∀ v' t' k, (mark ((R.machine G op tail).arrive s v t j ins) v t j).done v' t' k = true ↔
      (v' = v ∧ t' = t ∧ k = j) ∨ s.done v' t' k = true := by
    intro v' t' k
    rw [mark_done, arrive_done]
  obtain ⟨hpc, hj, hnd, hcap, -⟩ := hd
  rw [partsAt_eq _ hp] at hj
  rw [readsAt_eq _ hp] at hcap
  obtain ⟨hv, hat⟩ := codeAt_of_lt F hp ht
  cases hat with
  | own hi =>
    obtain ⟨a, ha⟩ := Option.isSome_iff_exists.mp (hcap hj)
    refine h.deliver_own F hsep hw hh hv hi hj hnd ha (by simp) ?_ hdone
    simp only [mark_mem, arrive, ha]
  | send hr =>
    obtain ⟨a, ha⟩ := Option.isSome_iff_exists.mp (hcap hj)
    refine h.deliver_send F hsep hw hh hv hr hj hpc hnd ha (by simp) ?_ hdone
    simp only [mark_mem, arrive, ha]
    rfl
  | cts i c hc => exact h.deliver_word F hp hdone (by simp) rfl (fun w => Instr.noConfusion) fun w => Instr.noConfusion
  | zero hi => exact h.deliver_word F hp hdone (by simp) rfl (fun w => Instr.noConfusion) fun w => Instr.noConfusion
  | ctsZero hr => exact h.deliver_word F hp hdone (by simp) rfl (fun w => Instr.noConfusion) fun w => Instr.noConfusion
  | add hr => exact h.deliver_word F hp hdone (by simp) rfl (fun w => Instr.noConfusion) fun w => Instr.noConfusion
  | _ => exact absurd hj (Nat.not_lt_zero _)

/-- the root ends up with the reduction of everything -/
theorem Values.result (hassoc : ∀ a b c, op (op a b) c = op a (op b c)) (hcomm : ∀ a b, op a b = op b a)
    (h : R.Values G op m0 s) (hw : R.Words s) (hh : (R.machine G op tail).Hist s)
    (hpc : R.off R.T.root ≤ s.pc R.T.root) {j : ℕ} (hj : j < G.count) : s.mem R.T.root (.sym (G.target + j)) =
      foldRanks op (fun r => m0 (G.A.pe r) (.sym (G.source + j))) G.A.PE_size := by
  have hi : R.Inner R.T.root := .inl rfl
  have hlt : R.waitPos R.T.root < s.pc R.T.root := by
    rw [off, upPos_inner hi] at hpc
    omega
  have hred := h.complete F hw hh R.T.root_mem hi hlt hj
  have hnodes : (Finset.range G.A.PE_size).image G.A.pe = R.T.nodes := by
    rw [G.A.image_pe]
    ext v
    rw [List.mem_toFinset]
    exact F.nodes v
  have hranks : Red op (fun r => m0 (G.A.pe r) (.sym (G.source + j))) _ _ := foldRanks_red G.A.size_pos
  have hfold := Red.image (g := fun x => m0 x (.sym (G.source + j))) (fun r r' heq => G.A.pe_inj.mp heq) hranks
  rw [ParentTree.subtree_root] at hred
  rw [hnodes] at hfold
  exact hred.unique hassoc hcomm hfold

/-! ## What is said of the programs -/

/-- only the protocol sends contributions -/
theorem codeAt_of_atomicv {v t dst len pe : ℕ} {src : Loc}
    (hp : (R.machine G op tail).prog v t = some (.atomicv dst src len pe)) :
    v ∈ R.T.nodes ∧ v ≠ R.T.root ∧ t = R.sendPos v ∧ len = G.count ∧ pe = R.T.parent v := by
  obtain ⟨hv, hat | ⟨x, -, hx⟩⟩ := prog_cases F hp
  · cases hat with
    | send hr => exact ⟨hv, hr, rfl, rfl, rfl⟩
  · exact absurd rfl (F.atomic v ((F.nodes v).mpr hv) _ (List.mem_of_getElem? hx) dst src len pe)

theorem Words.stored (h : R.Words s) (hh : (R.machine G op tail).Hist s) {c t dst len p j : ℕ} {src : Loc}
    (hp : (R.machine G op tail).prog c t = some (.atomicv dst src len p)) (hd : s.done c t j = true) :
    (R.machine G op tail).prog p 0 = some (.putNb G.target (.sym G.source) G.count p) ∧
      ∀ k < G.count, s.done p 0 k = true := by
  obtain ⟨hc, hr, rfl, -, rfl⟩ := codeAt_of_atomicv F hp
  have hlt : R.sendPos c < s.pc c := (hh.doneIssued _ _ _ hd).1
  rw [sendPos] at hlt
  exact ⟨prog_of F (R.T.parent_mem c hc) (.own (inner_of_child (getElem_idxOf hc hr))),
    fun k hk => h.stored_parent F hh hc hr (by omega) hk⟩

theorem Words.forwards (h : R.Words s) (hh : (R.machine G op tail).Hist s) {v t dst len p : ℕ} {src : Loc}
    (hp : (R.machine G op tail).prog v t = some (.atomicv dst src len p)) (ht : t < s.pc v) {c u dst' len' : ℕ}
    {src' : Loc} (hc : (R.machine G op tail).prog c u = some (.atomicv dst' src' len' v)) {j : ℕ} (hj : j < len') :
    s.done c u j = true := by
  obtain ⟨hv, hr, rfl, -, -⟩ := codeAt_of_atomicv F hp
  obtain ⟨hcn, hcr, rfl, rfl, rfl⟩ := codeAt_of_atomicv F hc
  have hcm := R.T.mem_children_parent hcn hcr
  refine h.applied F hh hv hcm ?_ hj
  rw [sendPos, upPos_inner (.inr (List.ne_nil_of_mem hcm))] at ht
  omega

/-- the words of who is through with the protocol are zero, when words that nobody writes are -/
theorem Words.zero (h : R.Words s) (hun : ∀ v ∈ R.T.nodes, ∀ w, (Ledger.unused v w).Of (R.machine G op tail) →
    s.cell v w = 0) {v : ℕ} (hv : v ∈ R.T.nodes) (hpc : R.off v ≤ s.pc v) {w : ℕ} (hlt : w < 2) : s.cell v w = 0 := by
  by_cases hi : R.Inner v ∧ w = 0
  · -- a counter
    obtain ⟨hi, rfl⟩ := hi
    have hcell : s.cell v 0 = _ := (h.counter v hv hi).cell
    by_cases hne : R.T.children v = []
    · have hsum : (R.counter v).sum s = 0 := by
        refine Finset.sum_eq_zero fun p hp => ?_
        obtain ⟨c, hc, -⟩ := Finset.mem_image.mp hp
        rw [hne] at hc
        exact absurd hc (by simp)
      rw [hcell, hsum, ite_self]
    · rw [off, upPos_inner hi] at hpc
      rw [hcell, if_pos (h.zeroed v hv hne (by omega))]
  by_cases hf : v ≠ R.T.root ∧ w = R.cts
  · -- a word of the clear to send
    obtain ⟨hr, rfl⟩ := hf
    have hcell : s.cell v R.cts = _ := (h.flag v hv hr).cell
    rw [off, if_neg hr] at hpc
    rw [hcell, if_pos (h.ctsZeroed v hv hr (by omega))]
  · refine hun v hv w (Ledger.unused_of fun u t ins hp hw => ?_)
    obtain ⟨hu, hat⟩ := codeAt_of_word F hp hw hlt
    cases hat with
    | cts i c hc =>
      refine ⟨fun hd => ?_, fun _ => Option.some_ne_none _⟩
      obtain rfl := Option.some.inj hd
      exact hf ⟨R.T.child_ne_root hu (List.mem_of_getElem? hc), (Option.some.inj hw).symm⟩
    | zero hiu =>
      refine ⟨fun hd => ?_, fun _ => Option.some_ne_none _⟩
      obtain rfl := Option.some.inj hd
      exact hi ⟨hiu, (Option.some.inj hw).symm⟩
    | ctsZero hr =>
      refine ⟨fun hd => ?_, fun _ => Option.some_ne_none _⟩
      obtain rfl := Option.some.inj hd
      exact hf ⟨hr, (Option.some.inj hw).symm⟩
    | add hr =>
      refine ⟨fun hd => ?_, fun _ => Option.some_ne_none _⟩
      obtain rfl := Option.some.inj hd
      exact hi ⟨.inr (List.ne_nil_of_mem (R.T.mem_children_parent hu hr)), (Option.some.inj hw).symm⟩
    | _ => exact absurd hw (by simp [Instr.word])

end

end Plan

/-- what is true of a reduction in a state s that it has reached from the memory m0 -/
structure ReduceOk {α : Type*} (G : ReduceArgs) (op : α → α → α) (body : ℕ → List Instr) (m0 : ℕ → Loc → α)
    (s : St α) : Prop where
  /-- the target of who has returned is the reduction of all sources -/
  result : ∀ v ∈ G.A.members, s.pc v = (body v).length → ∀ j < G.count,
    s.mem v (.sym (G.target + j)) = foldRanks op (fun r => m0 (G.A.pe r) (.sym (G.source + j))) G.A.PE_size
  /-- a contribution reaches a target only after the PE has stored its own there -/
  stored : ∀ c t dst src len p, (once G.A.members op body).prog c t = some (.atomicv dst src len p) →
    ∀ j, s.done c t j = true → ∃ u, (once G.A.members op body).prog p u =
      some (.putNb G.target (.sym G.source) G.count p) ∧ ∀ k < G.count, s.done p u k = true
  /-- a PE sends its partial result only after the contributions that others send to it have been applied -/
  applied : ∀ v t dst src len p, (once G.A.members op body).prog v t = some (.atomicv dst src len p) → t < s.pc v →
    ∀ c u dst' src' len', (once G.A.members op body).prog c u = some (.atomicv dst' src' len' v) →
      ∀ j < len', s.done c u j = true
  /-- the pSync of who has returned is zero -/
  zero : ∀ v ∈ G.A.members, s.pc v = (body v).length → ∀ w, s.cell v w = 0

namespace Plan
variable {R : Plan} {G : ReduceArgs} {α : Type*} {op : α → α → α} {tail : ℕ → List Instr} {m0 : ℕ → Loc → α} {s : St α}

theorem ok_of (F : R.Fits G tail) (hh : (R.machine G op tail).Hist s) (hw : R.Words s)
    (hresult : ∀ v ∈ R.T.nodes, s.pc v = R.off v + (tail v).length → ∀ j < G.count, s.mem v (.sym (G.target + j)) =
      foldRanks op (fun r => m0 (G.A.pe r) (.sym (G.source + j))) G.A.PE_size)
    (hun : ∀ v ∈ R.T.nodes, ∀ w, (Ledger.unused v w).Of (R.machine G op tail) → s.cell v w = 0)
    (hword : ∀ v ∈ R.T.nodes, s.pc v = R.off v + (tail v).length → ∀ w, 2 ≤ w → s.cell v w = 0) :
    ReduceOk G op (fun v => R.node G v ++ tail v) m0 s := by
  have hlen : ∀ v, (R.node G v ++ tail v).length = R.off v + (tail v).length := by
    intro v
    rw [List.length_append, length_node]
  refine ⟨fun v hv hpc => ?_, fun c t dst src len p hp j hd => ⟨0, hw.stored F hh hp hd⟩,
    fun v t dst src len p hp ht c u dst' src' len' hc j hj => hw.forwards F hh hp ht hc hj, fun v hv hpc w => ?_⟩
  · rw [hlen] at hpc
    exact hresult v ((F.nodes v).mp hv) hpc
  · rw [hlen] at hpc
    rcases Nat.lt_or_ge w 2 with hlt | hge
    · exact hw.zero F hun ((F.nodes v).mp hv) (by omega) hlt
    · exact hword v ((F.nodes v).mp hv) hpc w hge

theorem unused_run {c0 : ℕ → ℕ → ℤ} (hh : (R.machine G op tail).Hist (init c0 m0)) (h0 : ∀ v ∈ R.T.nodes, ∀ w, c0 v w = 0)
    (ops : List Op) {v : ℕ} (hv : v ∈ R.T.nodes) {w : ℕ} (hof : (Ledger.unused v w).Of (R.machine G op tail)) :
    ((R.machine G op tail).run (init c0 m0) ops).cell v w = 0 :=
  ((Ledger.unused_keeps hof).run hh (Ledger.holds_init m0 (h0 v hv w)) ops).2.unused

/-! ## One member -/

section
variable (F : R.Fits G fun _ => []) (hsep : G.Separate)
include F hsep

theorem keeps_nil : (R.machine G op fun _ => []).Keeps fun s => R.Words s ∧ R.Values G op m0 s := by
  refine ⟨?_, ?_, ?_⟩
  · rintro s v ins hh ⟨hw, h⟩ hp he
    refine ⟨hw.exec F hh hp he, ?_⟩
    rw [effect_eq F hp s]
    exact ⟨h.own, h.sent, h.source, h.target⟩
  · rintro s v i j ins a hh ⟨hw, h⟩ hp hpc hj hn hsrc
    exact ⟨hw.capture v i j a, h.capture F hw hh hp hpc hj hn hsrc⟩
  · rintro s v i j ins hh ⟨hw, h⟩ hp hd
    refine ⟨hw.deliver F hh hp hd, h.deliver F hsep hw hh hp hd ?_⟩
    obtain ⟨-, hat | ⟨x, -, hx⟩⟩ := prog_cases F hp
    · rw [← length_node (G := G)]
      exact (List.getElem?_eq_some_iff.mp hat.getElem).1
    · exact absurd hx (by simp)

/-- nothing is broadcast -/
theorem ok_of_nil (hassoc : ∀ a b c, op (op a b) c = op a (op b c)) (hcomm : ∀ a b, op a b = op b a)
    (h1 : G.A.PE_size = 1) (hroot : R.T.root = G.A.pe 0) {c0 : ℕ → ℕ → ℤ} (h0 : ∀ v ∈ R.T.nodes, ∀ w, c0 v w = 0)
    (ops : List Op) :
    ReduceOk G op (fun v => R.node G v ++ []) m0 ((R.machine G op fun _ => []).run (init c0 m0) ops) := by
  obtain ⟨hh, hw, h⟩ := (keeps_nil F hsep).run (hist_init _ c0 m0) ⟨words_init m0 h0, values_init c0⟩ ops
  have hun : ∀ v ∈ R.T.nodes, ∀ w, (Ledger.unused v w).Of (R.machine G op fun _ => []) → _ :=
    fun v hv w hof => unused_run (hist_init _ c0 m0) h0 ops hv hof
  refine ok_of F hh hw (fun v hv hpc j hj => ?_) hun fun v hv _ w hw => hun v hv w (Ledger.unused_of ?_)
  · obtain ⟨q, hq, rfl⟩ := G.A.mem_members.mp ((F.nodes v).mpr hv)
    obtain rfl : q = 0 := by omega
    rw [← hroot] at hpc ⊢
    exact h.result F hassoc hcomm hw hh hpc.ge hj
  · intro u t ins hp hword
    obtain ⟨-, hat | ⟨x, -, hx⟩⟩ := prog_cases F hp
    · have hcts := F.cts_lt
      cases hat with
      | cts => exact absurd (Option.some.inj hword) (by omega)
      | ctsZero => exact absurd (Option.some.inj hword) (by omega)
      | zero => exact absurd (Option.some.inj hword) (by omega)
      | add => exact absurd (Option.some.inj hword) (by omega)
      | _ => exact absurd hword (by simp [Instr.word])
    · exact absurd hx (by simp)

end

/-! ## The broadcast -/

/-- the j-th element of the reduction -/
def reduced {α : Type*} (G : ReduceArgs) (op : α → α → α) (m0 : ℕ → Loc → α) (j : ℕ) : α :=
  foldRanks op (fun r => m0 (G.A.pe r) (.sym (G.source + j))) G.A.PE_size

/-- a broadcast fits behind the protocol -/
theorem fits_bcast {S : Shape} (hnodes : ∀ v, v ∈ G.A.members ↔ v ∈ R.T.nodes)
    (hcts : R.cts = 1 ∨ (R.cts = 0 ∧ ∀ v, v ≠ R.T.root → R.T.children v = []))
    (hbody : ∀ v ∈ G.A.members, tail v = S.node (bcastArgs G) v) : R.Fits G tail := by
  have hat : ∀ v ∈ G.A.members, ∀ ins ∈ tail v, ∃ x, S.NodeAt (bcastArgs G) v x ins := by
    intro v hv ins hmem
    rw [hbody v hv] at hmem
    obtain ⟨x, hx⟩ := List.getElem?_of_mem hmem
    exact ⟨x, Shape.nodeAt_of_getElem hx⟩
  refine ⟨hnodes, hcts, fun v hv ins hmem => ?_, fun v hv ins hmem => ?_, fun v hv ins hmem dst src len pe => ?_⟩
  · obtain ⟨x, hx⟩ := hat v hv ins hmem
    cases hx <;> simp [Instr.word, bcastArgs]
  · obtain ⟨x, hx⟩ := hat v hv ins hmem
    cases hx <;> simp [Instr.silent, Instr.dest]
  · obtain ⟨x, hx⟩ := hat v hv ins hmem
    cases hx <;> exact Instr.noConfusion

section
variable {S : Shape} (F : R.Fits G tail) (hnodes : ∀ v, v ∈ R.T.nodes ↔ v ∈ S.T.nodes) (hroot : S.T.root = R.T.root)
  (hedge : R.T.children R.T.root ≠ []) (hstart : S.T.children S.T.root ≠ [])
  (hbody : ∀ v ∈ G.A.members, tail v = S.node (bcastArgs G) v)
include F hnodes

include hstart hbody in
theorem embed : Embed (R.machine G op tail) S (bcastArgs G) R.off := by
  refine ⟨hstart, fun v t ins hp => ?_, fun v hv x => ?_, fun v t ins hp hlt => ?_⟩
  · exact (hnodes v).mp (prog_cases F hp).1
  · have hvn := (hnodes v).mpr hv
    rw [prog_tail F hvn, hbody v ((F.nodes v).mpr hvn)]
  · obtain ⟨-, hat⟩ := codeAt_of_lt F hp hlt
    have hcts := F.cts_lt
    cases hat with
    | cts => exact fun hw => absurd (Option.some.inj hw) (show R.cts ≠ 2 by omega)
    | ctsZero => exact fun hw => absurd (Option.some.inj hw) (show R.cts ≠ 2 by omega)
    | _ => simp [Instr.word, bcastArgs]

include hroot hedge in
theorem calm (hw : R.Words s) (hh : (R.machine G op tail).Hist s) : Calm (R.machine G op tail) S R.off s := by
  intro hpc v hv
  rw [hroot] at hpc
  have hvn := (hnodes v).mpr hv
  have hle := hw.all_through hh hpc.le v hvn
  exact ⟨fun t ins h1 h2 => absurd (h1.trans_lt h2) (Nat.not_lt.mpr hle),
    fun t ht j hj => hw.all_done F hedge hh hpc.le hvn ht hj⟩

include hroot hedge hstart hbody

theorem keeps_bcast (hsep : G.Separate) (hassoc : ∀ a b c, op (op a b) c = op a (op b c))
    (hcomm : ∀ a b, op a b = op b a) : (R.machine G op tail).Keeps fun s =>
      R.Words s ∧ (s.pc R.T.root ≤ R.off R.T.root → R.Values G op m0 s) ∧
        BInv S (bcastArgs G) R.off (reduced G op m0) s := by
  have E : Embed (R.machine G op tail) S (bcastArgs G) R.off := embed F hnodes hstart hbody
  refine ⟨?_, ?_, ?_⟩
  · rintro s v ins hh ⟨hw, h, hb⟩ hp he
    refine ⟨hw.exec F hh hp he, fun hpc => ?_, hb.exec E hh (calm F hnodes hroot hedge hw hh) hp he fun hpc j hj => ?_⟩
    · have hle : s.pc R.T.root ≤ R.off R.T.root := (later_exec _ s v ins).pc R.T.root |>.trans hpc
      rw [effect_eq F hp s]
      exact ⟨(h hle).own, (h hle).sent, (h hle).source, (h hle).target⟩
    · -- the root starts the broadcast with the result
      rw [hroot] at hpc ⊢
      exact (h hpc.le).result F hassoc hcomm hw hh hpc.ge hj
  · rintro s v i j ins a hh ⟨hw, h, hb⟩ hp hpc hj hn hsrc
    exact ⟨hw.capture v i j a, fun hle => (h hle).capture F hw hh hp hpc hj hn hsrc, hb.capture E hh hp hpc hj hsrc⟩
  · rintro s v i j ins hh ⟨hw, h, hb⟩ hp hd
    refine ⟨hw.deliver F hh hp hd, fun hle => ?_, hb.deliver E hh (calm F hnodes hroot hedge hw hh) hp hd⟩
    rw [mark_pc, arrive_pc] at hle
    -- nobody is in the broadcast yet
    have hnot : ¬ R.off S.T.root < s.pc S.T.root := by
      rw [hroot]
      exact Nat.not_lt.mpr hle
    have hvn := (hnodes v).mp (prog_cases F hp).1
    exact (h hle).deliver F hsep hw hh hp hd (hd.1.trans_le ((hb.not_started hh hnot).1 v hvn))

/-- the reduction with a broadcast behind it -/
theorem ok_of_bcast (hsep : G.Separate) (hassoc : ∀ a b c, op (op a b) c = op a (op b c))
    (hcomm : ∀ a b, op a b = op b a) {c0 : ℕ → ℕ → ℤ} (h0 : ∀ v ∈ R.T.nodes, ∀ w, c0 v w = 0) (ops : List Op) :
    ReduceOk G op (fun v => R.node G v ++ tail v) m0 ((R.machine G op tail).run (init c0 m0) ops) := by
  have E : Embed (R.machine G op tail) S (bcastArgs G) R.off := embed F hnodes hstart hbody
  have hidle : BInv S (bcastArgs G) R.off (reduced G op m0) (init c0 m0) :=
    BInv.idle (hist_init (R.machine G op tail) c0 m0) (fun v _ => Nat.zero_le _)
      fun v hv => h0 v ((hnodes v).mpr hv) 2
  obtain ⟨hh, hw, h, hb⟩ := (keeps_bcast F hnodes hroot hedge hstart hbody hsep hassoc hcomm).run
    (hist_init _ c0 m0) ⟨words_init m0 h0, fun _ => values_init c0, hidle⟩ ops
  have hun : ∀ v ∈ R.T.nodes, ∀ w, (Ledger.unused v w).Of (R.machine G op tail) → _ :=
    fun v hv w hof => unused_run (hist_init _ c0 m0) h0 ops hv hof
  have hlen : ∀ v ∈ R.T.nodes, (tail v).length = (S.node (bcastArgs G) v).length := fun v hv => by
    rw [hbody v ((F.nodes v).mpr hv)]
  refine ok_of F hh hw (fun v hv hpc j hj => ?_) hun fun v hv hpc w hw => ?_
  · have hvs := (hnodes v).mp hv
    have hle := Shape.startPos_le (S := S) (B := bcastArgs G) v
    rw [hlen v hv, Shape.length_node] at hpc
    by_cases hr : v = S.T.root
    · subst hr
      have hmid : 0 < (S.middle (bcastArgs G) S.T.root).length := by
        rw [Shape.length_middle, if_neg hstart]
        omega
      refine hb.root ?_ j hj
      simp only [Shape.clearPos, Shape.gatherPos] at hpc
      omega
    · have hpos := Shape.startPos_pos (B := bcastArgs G) hr
      exact hb.got_returned E hh hvs hr (by omega) hj
  · rcases Nat.lt_or_ge 2 w with hgt | hle
    · refine hun v hv w (Ledger.unused_of fun u t ins hp hword => ?_)
      exfalso
      obtain ⟨hu, hat | ⟨x, -, hx⟩⟩ := prog_cases F hp
      · have hcts := F.cts_lt
        cases hat with
        | cts => exact absurd (Option.some.inj hword) (by omega)
        | ctsZero => exact absurd (Option.some.inj hword) (by omega)
        | zero => exact absurd (Option.some.inj hword) (by omega)
        | add => exact absurd (Option.some.inj hword) (by omega)
        | _ => exact absurd hword (by simp [Instr.word])
      · rw [hbody u ((F.nodes u).mpr hu)] at hx
        have hne : w ≠ 2 := by omega
        cases Shape.nodeAt_of_getElem hx <;> simp [Instr.word, bcastArgs, hne.symm] at hword
    · obtain rfl : w = 2 := by omega
      rw [hlen v hv] at hpc
      exact hb.word_returned ((hnodes v).mp hv) hpc

end

end Plan

/-! ## The two reductions are the protocol -/

section
variable {G : ReduceArgs}

/-- what an algorithm does before its broadcast -/
def ReduceAlg.part (G : ReduceArgs) : ReduceAlg → ℕ → List Instr
  | .linear => linearPart G
  | .tree radix => treePart G radix

/-- the peers of the first member in the order of the loop -/
theorem peers_first (A : ActiveSet) :
    A.members.filter (· ≠ A.pe 0) = (List.range (A.PE_size - 1)).map fun i => A.pe (i + 1) := by
  have hsplit : A.members = A.pe 0 :: (List.range (A.PE_size - 1)).map fun i => A.pe (i + 1) := by
    obtain ⟨n, hn⟩ : ∃ n, A.PE_size = n + 1 := ⟨A.PE_size - 1, by have := A.size_pos; omega⟩
    rw [ActiveSet.members, hn, List.range_succ_eq_map, List.map_cons, List.map_map]
    rfl
  rw [hsplit, List.filter_cons_of_neg (by simp)]
  refine List.filter_eq_self.mpr fun v hv => ?_
  obtain ⟨i, -, rfl⟩ := List.mem_map.mp hv
  have hne : A.pe (i + 1) ≠ A.pe 0 := fun h => absurd (A.pe_inj.mp h) (Nat.succ_ne_zero i)
  exact decide_eq_true hne

theorem linearPart_node (v : ℕ) : linearPart G v = Plan.node ⟨starAt G.A G.A.size_pos, 0⟩ G v := by
  by_cases hv : G.A.pe 0 = v
  · subst hv
    have hch : (starAt G.A G.A.size_pos).children (G.A.pe 0) =
        (List.range (G.A.PE_size - 1)).map fun i => G.A.pe (i + 1) := (if_pos rfl).trans (peers_first G.A)
    have hi : Plan.Inner ⟨starAt G.A G.A.size_pos, 0⟩ (G.A.pe 0) := .inl rfl
    have hr : G.A.pe 0 = (starAt G.A G.A.size_pos).root := rfl
    rw [linearPart, if_pos G.A.pe_zero.symm, Plan.node, Plan.inner, if_pos hi, Plan.outer, if_pos hr, hch,
      List.append_nil, List.map_map, List.length_map, List.length_range]
    rfl
  · have hch : (starAt G.A G.A.size_pos).children v = [] := if_neg hv
    have hr : v ≠ (starAt G.A G.A.size_pos).root := fun h => hv h.symm
    have hi : ¬ Plan.Inner ⟨starAt G.A G.A.size_pos, 0⟩ v := fun h => h.elim hr fun hne => hne hch
    have hstart : G.A.PE_start ≠ v := by rwa [← G.A.pe_zero]
    have hpar : (starAt G.A G.A.size_pos).parent v = G.A.PE_start := G.A.pe_zero
    rw [linearPart, if_neg hstart, Plan.node, Plan.inner, if_neg hi, Plan.outer, if_neg hr, Plan.sendBuf, if_pos hch,
      hpar, List.nil_append]

theorem treePart_node {radix : ℕ} {T : ParentTree} {v : ℕ} (hT : treeFamily radix G.A 0 v = (T.parent v, T.children v))
    (hedge : T.children T.root ≠ []) (hv : v ∈ T.nodes) : treePart G radix v = Plan.node ⟨T, 1⟩ G v := by
  have hi : Plan.Inner ⟨T, 1⟩ v ↔ T.children v ≠ [] := by
    refine ⟨fun h => h.elim ?_ id, .inr⟩
    rintro rfl
    exact hedge
  simp only [treePart, hT, Plan.node, Plan.inner, Plan.outer, Plan.sendBuf, hi]
  by_cases hr : v = T.root
  · rw [if_pos hr, if_neg (not_not.mpr ((T.parent_eq_self hv).mpr hr))]
  · rw [if_neg hr, if_pos fun h => hr ((T.parent_eq_self hv).mp h)]

/-- either reduction is the protocol on a tree -/
theorem exists_plan {alg : ReduceAlg} (halg : alg.Valid G.A)
    (h2 : alg = .linear ∨ 2 ≤ G.A.PE_size) : ∃ R : Plan, R.T.root = G.A.pe 0 ∧
      (∀ v, v ∈ G.A.members ↔ v ∈ R.T.nodes) ∧
      (R.cts = 1 ∨ (R.cts = 0 ∧ ∀ v, v ≠ R.T.root → R.T.children v = [])) ∧
      ∀ v ∈ G.A.members, alg.part G v = R.node G v := by
  cases alg with
  | linear =>
    refine ⟨⟨starAt G.A G.A.size_pos, 0⟩, rfl, fun v => by simp [starAt], .inr ⟨rfl, fun v hr => ?_⟩, fun v _ => ?_⟩
    · exact if_neg fun h => hr h.symm
    · exact linearPart_node v
  | tree radix =>
    have h2 : 2 ≤ G.A.PE_size := h2.resolve_left ReduceAlg.noConfusion
    obtain ⟨T, hr, hnodes, hfam⟩ := exists_tree (halg h2) h2 G.A.size_pos
    have hne : G.A.pe 1 ≠ T.root := by
      rw [hr]
      exact fun h => absurd (G.A.pe_inj.mp h) Nat.one_ne_zero
    have hedge := T.children_root_ne_nil ((hnodes _).mp (G.A.pe_mem h2)) hne
    exact ⟨⟨T, 1⟩, hr, hnodes, .inl rfl, fun v hv => treePart_node (hfam v hv) hedge ((hnodes v).mp hv)⟩

/-- the programs but for the tree of one member -/
theorem body_eq {alg : ReduceAlg} (hcount : 0 < G.count) (h2 : alg = .linear ∨ 2 ≤ G.A.PE_size) (bcast : BcastAlg)
    (v : ℕ) : alg.body G bcast v = alg.part G v ++ bcastBody G.A (bcastArgs G) 0 bcast v := by
  cases alg with
  | linear =>
    simp only [ReduceAlg.body, ReduceAlg.part]
    rw [opToAllLinear, if_neg (by omega)]
  | tree radix =>
    have h2 : 2 ≤ G.A.PE_size := h2.resolve_left ReduceAlg.noConfusion
    simp only [ReduceAlg.body, ReduceAlg.part]
    rw [opToAllTree, if_neg (by omega), if_neg (by omega)]

end

/-! ## The reductions -/

section
variable {G : ReduceArgs} {α : Type*} {op : α → α → α} {m0 : ℕ → Loc → α} {c0 : ℕ → ℕ → ℤ} (hsep : G.Separate)

/-- the tree of one member is a copy -/
theorem prog_of_one (h1 : G.A.PE_size = 1) {radix : ℕ} {bcast : BcastAlg} {v t : ℕ} {ins : Instr}
    (hp : (once G.A.members op (opToAllTree G radix bcast)).prog v t = some ins) :
    v = G.A.pe 0 ∧ t = 0 ∧ G.target ≠ G.source ∧ ins = .memcpy (.sym G.target) (.sym G.source) G.count := by
  simp only [once] at hp
  split_ifs at hp with hv
  obtain ⟨r, hr, rfl⟩ := G.A.mem_members.mp hv
  obtain rfl : r = 0 := by omega
  rw [opToAllTree, if_pos h1] at hp
  split_ifs at hp with hne
  · cases t with
    | zero => exact ⟨rfl, rfl, hne, (Option.some.inj hp).symm⟩
    | succ t => exact absurd hp (by simp)
  · exact absurd hp (by simp)

theorem keeps_one (h1 : G.A.PE_size = 1) (radix : ℕ) (bcast : BcastAlg) :
    (once G.A.members op (opToAllTree G radix bcast)).Keeps fun s => s.cell = c0 ∧
      (s.pc (G.A.pe 0) = 0 → s.mem = m0) ∧ (0 < s.pc (G.A.pe 0) → ∀ j < G.count,
        s.mem (G.A.pe 0) (.sym (G.target + j)) = m0 (G.A.pe 0) (.sym (G.source + j))) := by
  refine ⟨?_, ?_, ?_⟩
  · rintro s v ins hh ⟨hcell, hmem, -⟩ hp he
    obtain ⟨rfl, hpc, -, rfl⟩ := prog_of_one h1 hp
    refine ⟨hcell, fun h0 => ?_, fun _ j hj => ?_⟩
    · rw [advance_pc_self] at h0
      exact absurd h0 (Nat.succ_ne_zero _)
    · have hset := setBuf_elem s.mem (G.A.pe 0) (.sym G.target) (fun j => s.mem (G.A.pe 0) (.sym (G.source + j))) hj
      exact hset.trans (by rw [hmem hpc])
  · rintro s v i j ins a hh - hp hpc hj hn hsrc
    obtain ⟨-, -, -, rfl⟩ := prog_of_one h1 hp
    exact absurd hj (Nat.not_lt_zero _)
  · rintro s v i j ins hh - hp hd
    obtain ⟨-, -, -, rfl⟩ := prog_of_one h1 hp
    have hj := hd.2.1
    rw [partsAt_eq _ hp] at hj
    exact absurd hj (Nat.not_lt_zero _)

theorem ok_of_one (h1 : G.A.PE_size = 1) (radix : ℕ) (bcast : BcastAlg)
    (h0 : ∀ v ∈ G.A.members, ∀ w, c0 v w = 0) (ops : List Op) :
    ReduceOk G op (opToAllTree G radix bcast) m0
      ((once G.A.members op (opToAllTree G radix bcast)).run (init c0 m0) ops) := by
  obtain ⟨-, hcell, hmem, hcopy⟩ := (keeps_one h1 radix bcast).run (hist_init _ c0 m0)
    ⟨rfl, fun _ => rfl, fun h => absurd h (Nat.lt_irrefl 0)⟩ ops
  refine ⟨fun v hv hpc j hj => ?_, fun c t dst src len p hp => ?_, fun v t dst src len p hp => ?_, fun v hv _ w => ?_⟩
  · obtain ⟨r, hr, rfl⟩ := G.A.mem_members.mp hv
    obtain rfl : r = 0 := by omega
    have hfold : foldRanks op (fun r => m0 (G.A.pe r) (.sym (G.source + j))) G.A.PE_size =
        m0 (G.A.pe 0) (.sym (G.source + j)) := by
      rw [h1]
      rfl
    rw [opToAllTree, if_pos h1] at hpc
    rw [hfold]
    split_ifs at hpc with hne
    · exact hcopy (lt_of_lt_of_eq Nat.one_pos hpc.symm) j hj
    · rw [hmem hpc, not_not.mp hne]
      rfl
  · exact absurd (prog_of_one h1 hp).2.2.2 Instr.noConfusion
  · exact absurd (prog_of_one h1 hp).2.2.2 Instr.noConfusion
  · rw [hcell]
    exact h0 v hv w

include hsep in
/-- every state of a reduction -/
theorem op_to_all_ok (hcount : 0 < G.count) (hassoc : ∀ a b c, op (op a b) c = op a (op b c))
    (hcomm : ∀ a b, op a b = op b a) (alg : ReduceAlg) (halg : alg.Valid G.A)
    (bcast : BcastAlg) (hbcast : bcast.Valid G.A G.count 0)
    (h0 : ∀ v ∈ G.A.members, ∀ w, c0 v w = 0) (ops : List Op) :
    ReduceOk G op (alg.body G bcast) m0 ((once G.A.members op (alg.body G bcast)).run (init c0 m0) ops) := by
  have hsize := G.A.size_pos
  by_cases hone : G.A.PE_size = 1 ∧ ∃ radix, alg = .tree radix
  · obtain ⟨h1, radix, rfl⟩ := hone
    exact ok_of_one h1 radix bcast h0 ops
  have h2 : alg = .linear ∨ 2 ≤ G.A.PE_size := by
    cases alg with
    | linear => exact .inl rfl
    | tree radix =>
      refine .inr ?_
      by_contra hlt
      exact hone ⟨by omega, radix, rfl⟩
  obtain ⟨R, hroot, hnodes, hcts, hpart⟩ := exists_plan halg h2
  have h0 : ∀ v ∈ R.T.nodes, ∀ w, c0 v w = 0 := fun v hv => h0 v ((hnodes v).mpr hv)
  -- the programs are those of the protocol with the broadcast behind it
  have hbody : ∀ {tail : ℕ → List Instr}, (∀ v, bcastBody G.A (bcastArgs G) 0 bcast v = tail v) →
      ReduceOk G op (fun v => R.node G v ++ tail v) m0 ((R.machine G op tail).run (init c0 m0) ops) →
      ReduceOk G op (alg.body G bcast) m0 ((once G.A.members op (alg.body G bcast)).run (init c0 m0) ops) := by
    intro tail htail hok
    have heq : ∀ v ∈ G.A.members, alg.body G bcast v = R.node G v ++ tail v := fun v hv => by
      rw [body_eq hcount h2, hpart v hv, htail]
    have hm : once G.A.members op (alg.body G bcast) = R.machine G op tail := once_congr heq
    rw [hm]
    refine ⟨fun v hv hpc => hok.result v hv (by rwa [heq v hv] at hpc), ?_, ?_,
      fun v hv hpc => hok.zero v hv (by rwa [heq v hv] at hpc)⟩
    · rw [hm]
      exact hok.stored
    · rw [hm]
      exact hok.applied
  rcases Nat.lt_or_ge 1 G.A.PE_size with hgt | hle
  · obtain ⟨S, hr, hmem, hstart, hshape⟩ := exists_shape (B := bcastArgs G) hsize hgt hbcast
      (show G.count ≠ 0 by omega)
    have hshape : ∀ v ∈ G.A.members, bcastBody G.A (bcastArgs G) 0 bcast v = S.node (bcastArgs G) v :=
      fun v hv => (hshape v hv).1
    have hne : G.A.pe 1 ≠ R.T.root := by
      rw [hroot]
      exact fun h => absurd (G.A.pe_inj.mp h) Nat.one_ne_zero
    have hedge := R.T.children_root_ne_nil ((hnodes _).mp (G.A.pe_mem hgt)) hne
    exact hbody (fun _ => rfl) (Plan.ok_of_bcast (Plan.fits_bcast hnodes hcts hshape)
      (fun v => (hnodes v).symm.trans (hmem v)) (hr.trans hroot.symm) hedge hstart hshape hsep hassoc hcomm h0 ops)
  · have h1 : G.A.PE_size = 1 := by omega
    have hfits : R.Fits G fun _ => [] := by
      refine ⟨hnodes, hcts, ?_, ?_, ?_⟩
      · exact fun v _ ins hmem => absurd hmem List.not_mem_nil
      · exact fun v _ ins hmem => absurd hmem List.not_mem_nil
      · exact fun v _ ins hmem => absurd hmem List.not_mem_nil
    exact hbody (fun v => bcastBody_nil (.inl h1) 0 bcast v)
      (Plan.ok_of_nil hfits hsep hassoc hcomm h1 hroot h0 ops)

end

/-- **Both reductions with atomics are correct.** For every active set, length, associative and commutative op and tree
radix with indices below 2^31, with target and source equal or disjoint, under every schedule and with either broadcast:
the target of who has returned is the elementwise reduction of all sources, so that the linear and the tree reduction
agree; nobody's contribution reaches a target before the PE has stored its own there; nobody sends its partial result
before it has all contributions that others send to it; and the pSync of who has returned is zero. -/
theorem op_to_all_correct {α : Type*} (G : ReduceArgs) (hcount : 0 < G.count) (hsep : G.Separate) (op : α → α → α)
    (hassoc : ∀ a b c, op (op a b) c = op a (op b c)) (hcomm : ∀ a b, op a b = op b a) (alg : ReduceAlg)
    (halg : alg.Valid G.A) (bcast : BcastAlg)
    (hbcast : bcast.Valid G.A G.count 0) (c0 : ℕ → ℕ → ℤ) (m0 : ℕ → Loc → α)
    (h0 : ∀ v ∈ G.A.members, ∀ w, c0 v w = 0) (ops : List Op) :
    let s := (once G.A.members op (alg.body G bcast)).run (init c0 m0) ops
    ReduceOk G op (alg.body G bcast) m0 s ∧
      ∀ alg' : ReduceAlg, alg'.Valid G.A → ∀ bcast' : BcastAlg,
        bcast'.Valid G.A G.count 0 → ∀ ops' : List Op,
        let s' := (once G.A.members op (alg'.body G bcast')).run (init c0 m0) ops'
        ∀ v ∈ G.A.members, s.pc v = (alg.body G bcast v).length → s'.pc v = (alg'.body G bcast' v).length →
          ∀ j < G.count, s.mem v (.sym (G.target + j)) = s'.mem v (.sym (G.target + j)) := by
  intro s
  have hs : ReduceOk G op (alg.body G bcast) m0 s := op_to_all_ok hsep hcount hassoc hcomm alg halg bcast hbcast h0 ops
  refine ⟨hs, fun alg' halg' bcast' hbcast' ops' => ?_⟩
  intro s' v hv hpc hpc' j hj
  have hs' : ReduceOk G op (alg'.body G bcast') m0 s' :=
    op_to_all_ok hsep hcount hassoc hcomm alg' halg' bcast' hbcast' h0 ops'
  calc s.mem v (.sym (G.target + j))
      = foldRanks op (fun r => m0 (G.A.pe r) (.sym (G.source + j))) G.A.PE_size := hs.result v hv hpc j hj
    _ = s'.mem v (.sym (G.target + j)) := (hs'.result v hv hpc' j hj).symm

theorem odd_bound : 1 + 2 * (2 - 1) < 4 := by decide

/-- PEs 1 and 3 of four add up one element each from address 4 into address 0 -/
def oddArgs : ReduceArgs := ⟨⟨1, 2, 2, 4, Nat.two_pos, Nat.two_pos, odd_bound⟩, 0, 4, 1⟩

/-- PE 3 contributes, PE 1 broadcasts, and PE 3 returns -/
def oddSched : List Op :=
  [.exec 1, .capture 1 0 0, .exec 1, .deliver 1 0 0, .exec 1, .exec 1, .deliver 1 3 0, .exec 3, .exec 3, .deliver 3 1 0,
    .exec 3, .exec 3, .capture 3 3 0, .exec 3, .deliver 3 3 0, .exec 3, .exec 3, .deliver 3 6 0, .exec 1, .exec 1,
    .deliver 1 5 0, .exec 1, .exec 1, .capture 1 7 0, .exec 1, .exec 1, .exec 1, .deliver 1 7 0, .deliver 1 10 0, .exec 3,
    .exec 3, .deliver 3 8 0, .exec 3]

/-- the state after it -/
def oddEnd : St ℤ :=
  (once oddArgs.A.members (· + ·) ((ReduceAlg.tree 2).body oddArgs .linear)).run (init (fun _ _ => 0) evenMem) oddSched

theorem oddArgs_fits : TreeFits 2 oddArgs.A 0 :=
  ⟨by decide, by decide, fun h => absurd h.1 (by decide), fun _ => by decide⟩

theorem op_to_all_correct_odd :
    oddEnd.pc 3 = ((ReduceAlg.tree 2).body oddArgs .linear 3).length ∧ oddEnd.mem 3 (.sym 0) = 48 ∧
      oddEnd.cell 3 1 = 0 := by
  have hpc : oddEnd.pc 3 = ((ReduceAlg.tree 2).body oddArgs .linear 3).length := by decide +kernel
  have h : ReduceOk oddArgs (· + ·) ((ReduceAlg.tree 2).body oddArgs .linear) evenMem oddEnd :=
    (op_to_all_correct oddArgs (by decide) (.inr (.inl (by decide))) (· + ·) Int.add_assoc Int.add_comm (.tree 2)
      (fun _ => oddArgs_fits) .linear trivial
      (fun _ _ => 0) evenMem (fun _ _ _ => rfl) oddSched).1
  have hsum : foldRanks (· + ·) (fun r => evenMem (oddArgs.A.pe r) (.sym (oddArgs.source + 0))) oddArgs.A.PE_size = 48 := by
    decide
  have hmem := h.result 3 (by decide) hpc 0 (by decide)
  have htarget : oddArgs.target + 0 = 0 := rfl
  rw [hsum, htarget] at hmem
  exact ⟨hpc, hmem, h.zero 3 (by decide) hpc 1⟩

end ReduceTree

end SandiaShmem.Collectives
