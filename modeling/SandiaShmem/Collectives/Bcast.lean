/-
Broadcasts.

Both broadcasts are one protocol over a tree of the active set: a node waits until its pSync word is not zero, passes the
data on to its children, fences, and puts 1 to their pSync words. When the broadcast is to be complete, every node adds 1
to its parent's word, and a node that has children waits for them. At the end a node puts zero to its own word and waits
for that. The linear broadcast is the protocol on the star, with the acknowledgement behind the zero.

A broadcast may be the last part of a larger program (the reductions and the linear fcollect end with one), so the
invariant is about a machine whose programs end with it (`Embed`). What the part before the broadcast has to promise is
that the root starts the broadcast only when everything before it is over everywhere (`Calm`).

- `BInv`: what the words and the targets hold, by what has been delivered.
- `BInv.exec`, `BInv.deliver`, `BInv.capture`: every step of the larger program keeps it.
- `bcast_correct`: the two broadcasts on their own.
-/
import SandiaShmem.Collectives.Calls

namespace SandiaShmem.Collectives

open OneSided OneSided.Machine

/-! ## Model -/

/-- the arguments of a broadcast beside the active set and the root; `word` is the index of its pSync -/
structure BcastArgs where
  word : ℕ
  target : ℕ
  source : ℕ
  len : ℕ
  complete : Bool

/-- `shmem_internal_bcast_linear` on the PE my_pe -/
def bcastLinear (A : ActiveSet) (B : BcastArgs) (PE_root my_pe : ℕ) : List Instr :=
  let real_root := A.pe PE_root
  if A.PE_size = 1 ∨ B.len = 0 then []
  else if real_root = my_pe then
    let peers := A.members.filter (· ≠ my_pe)
    let data : List Instr := peers.map fun pe => .putNb B.target (.sym B.source) B.len pe
    let acks : List Instr := peers.map fun pe => .putScalar B.word 1 pe
    let wait : List Instr :=
      if B.complete then
        [.waitUntil B.word .EQ (A.PE_size - 1 : ℕ), .putScalar B.word 0 my_pe, .waitUntil B.word .EQ 0]
      else []
    data ++ [.putWait, .fence] ++ acks ++ wait
  else
    let ack : List Instr := if B.complete then [.atomicAdd B.word 1 real_root] else []
    [.waitUntil B.word .NE 0, .putScalar B.word 0 my_pe, .waitUntil B.word .EQ 0] ++ ack

/-- `shmem_internal_bcast_tree` on the PE my_pe -/
def bcastTree (radix : ℕ) (A : ActiveSet) (B : BcastArgs) (PE_root my_pe : ℕ) : List Instr :=
  if A.PE_size = 1 ∨ B.len = 0 then []
  else
    let parent := (treeFamily radix A PE_root my_pe).1
    let children := (treeFamily radix A PE_root my_pe).2
    let ack : List Instr := if B.complete then [.atomicAdd B.word 1 parent] else []
    let clear : List Instr := [.putScalar B.word 0 my_pe, .waitUntil B.word .EQ 0]
    if children ≠ [] then
      let send_buf := if parent ≠ my_pe then B.target else B.source
      let arrival : List Instr := if parent ≠ my_pe then .waitUntil B.word .NE 0 :: ack else []
      let data : List Instr := children.map fun c => .putNb B.target (.sym send_buf) B.len c
      let acks : List Instr := children.map fun c => .putScalar B.word 1 c
      let wait : List Instr :=
        if B.complete then [.waitUntil B.word .EQ (children.length + (if parent = my_pe then 0 else 1) : ℕ)] else []
      arrival ++ data ++ [.putWait, .fence] ++ acks ++ wait ++ clear
    else .waitUntil B.word .NE 0 :: (ack ++ clear)

/-- which of the two -/
inductive BcastAlg where
  | linear
  | tree (radix : ℕ)
deriving DecidableEq, Repr

/-- its tree is right, if it sends anything -/
def BcastAlg.Valid (A : ActiveSet) (len PE_root : ℕ) : BcastAlg → Prop
  | .linear => True
  | .tree radix => 2 ≤ A.PE_size → len ≠ 0 → TreeFits radix A PE_root

/-- `shmem_internal_bcast` once it has chosen -/
def bcastBody (A : ActiveSet) (B : BcastArgs) (PE_root : ℕ) : BcastAlg → ℕ → List Instr
  | .linear => bcastLinear A B PE_root
  | .tree radix => bcastTree radix A B PE_root

/-- the PEs a PE sends to -/
def bcastChildren (A : ActiveSet) (PE_root : ℕ) (alg : BcastAlg) (v : ℕ) : List ℕ :=
  if A.PE_size = 1 then []
  else
    match alg with
    | .linear => if A.pe PE_root = v then A.members.filter (· ≠ v) else []
    | .tree radix => (treeFamily radix A PE_root v).2

/-! ## The protocol on a tree -/

/-- the tree, and whether a node acknowledges behind its zero (the linear broadcast) -/
structure Shape where
  T : ParentTree
  late : Bool

namespace Shape
variable (S : Shape) (B : BcastArgs)

/-- a node that is not the root waits for the data -/
def front (v : ℕ) : List Instr :=
  if v = S.T.root then [] else
    .waitUntil B.word .NE 0 :: if B.complete ∧ ¬ S.late then [.atomicAdd B.word 1 (S.T.parent v)] else []

/-- where a node has the data it sends -/
def sendBuf (v : ℕ) : ℕ := if v = S.T.root then B.source else B.target

/-- it passes them on -/
def middle (v : ℕ) : List Instr :=
  if S.T.children v = [] then [] else
    (S.T.children v).map (fun c => Instr.putNb B.target (.sym (S.sendBuf B v)) B.len c) ++ ([.putWait, .fence] ++
      (S.T.children v).map fun c => Instr.putScalar B.word 1 c)

/-- it waits for its children -/
def gather (v : ℕ) : List Instr :=
  if B.complete ∧ S.T.children v ≠ [] then
    [.waitUntil B.word .EQ ((S.T.children v).length + (if v = S.T.root then 0 else 1) : ℕ)]
  else []

/-- whether it clears its word -/
def Clears (v : ℕ) : Prop := ¬ (S.late = true ∧ v = S.T.root ∧ B.complete = false)

instance (v : ℕ) : Decidable (S.Clears B v) := inferInstanceAs (Decidable (¬ _))

def back (v : ℕ) : List Instr :=
  if S.Clears B v then [.putScalar B.word 0 v, .waitUntil B.word .EQ 0] else []

def lateAck (v : ℕ) : List Instr :=
  if B.complete ∧ S.late ∧ v ≠ S.T.root then [.atomicAdd B.word 1 (S.T.parent v)] else []

/-- the body of a node -/
def node (v : ℕ) : List Instr :=
  S.front B v ++ (S.middle B v ++ (S.gather B v ++ (S.back B v ++ S.lateAck B v)))

/-! ## Positions -/

/-- where the data are sent -/
def startPos (v : ℕ) : ℕ := (S.front B v).length

def dataPos (v i : ℕ) : ℕ := S.startPos B v + i
def flagPos (v i : ℕ) : ℕ := S.startPos B v + ((S.T.children v).length + 2 + i)

/-- where the children are waited for -/
def gatherPos (v : ℕ) : ℕ := S.startPos B v + (S.middle B v).length

def clearPos (v : ℕ) : ℕ := S.gatherPos B v + (S.gather B v).length

def ackPos (v : ℕ) : ℕ := if S.late then S.clearPos B v + (S.back B v).length else 1

/-- what stands where in the body of v -/
inductive NodeAt (v : ℕ) : ℕ → Instr → Prop
  | arrive (h : v ≠ S.T.root) : NodeAt v 0 (.waitUntil B.word .NE 0)
  | ack (h : v ≠ S.T.root) (hc : B.complete = true) : NodeAt v (S.ackPos B v) (.atomicAdd B.word 1 (S.T.parent v))
  | data (i c : ℕ) (h : (S.T.children v)[i]? = some c) :
    NodeAt v (S.dataPos B v i) (.putNb B.target (.sym (S.sendBuf B v)) B.len c)
  | putWait (h : S.T.children v ≠ []) : NodeAt v (S.dataPos B v (S.T.children v).length) .putWait
  | fence (h : S.T.children v ≠ []) : NodeAt v (S.dataPos B v ((S.T.children v).length + 1)) .fence
  | flag (i c : ℕ) (h : (S.T.children v)[i]? = some c) : NodeAt v (S.flagPos B v i) (.putScalar B.word 1 c)
  | gather (h : S.T.children v ≠ []) (hc : B.complete = true) : NodeAt v (S.gatherPos B v)
      (.waitUntil B.word .EQ ((S.T.children v).length + (if v = S.T.root then 0 else 1) : ℕ))
  | clear (h : S.Clears B v) : NodeAt v (S.clearPos B v) (.putScalar B.word 0 v)
  | cleared (h : S.Clears B v) : NodeAt v (S.clearPos B v + 1) (.waitUntil B.word .EQ 0)

variable {S B}

theorem NodeAt.at_pos {v t t' : ℕ} {ins : Instr} (h : S.NodeAt B v t ins) (heq : t = t') : S.NodeAt B v t' ins :=
  heq ▸ h

/-- `NodeAt` says what is in the body -/
theorem NodeAt.getElem {v t : ℕ} {ins : Instr} (h : S.NodeAt B v t ins) : (S.node B v)[t]? = some ins := by
  have hmid : ∀ {x : ℕ} {ins : Instr}, (S.middle B v)[x]? = some ins →
      (S.node B v)[S.startPos B v + x]? = some ins :=
    fun h => getElem?_append_of_right _ (getElem?_append_of_left h)
  have hback : ∀ {x : ℕ} {ins : Instr}, (S.back B v ++ S.lateAck B v)[x]? = some ins →
      (S.node B v)[S.clearPos B v + x]? = some ins := by
    intro x ins h
    have := getElem?_append_of_right (S.front B v) (getElem?_append_of_right (S.middle B v)
      (getElem?_append_of_right (S.gather B v) h))
    rw [show S.clearPos B v + x = (S.front B v).length + ((S.middle B v).length + ((S.gather B v).length + x)) by
      simp only [clearPos, gatherPos, startPos]; omega]
    exact this
  cases h with
  | arrive h =>
    refine getElem?_append_of_left ?_
    simp [front, h]
  | ack h hc =>
    by_cases hl : S.late = true
    · rw [ackPos, if_pos hl]
      refine hback ?_
      have hlate : (S.lateAck B v)[0]? = some (.atomicAdd B.word 1 (S.T.parent v)) := by simp [lateAck, hc, hl, h]
      exact getElem?_append_of_right (S.back B v) hlate
    · rw [ackPos, if_neg hl]
      refine getElem?_append_of_left ?_
      simp [front, h, hc, hl]
  | data i c h =>
    have hne : S.T.children v ≠ [] := fun hnil => by simp [hnil] at h
    refine hmid ?_
    rw [middle, if_neg hne]
    refine getElem?_append_of_left ?_
    simp [h]
  | putWait h =>
    refine hmid ?_
    rw [middle, if_neg h]
    simp
  | fence h =>
    refine hmid ?_
    rw [middle, if_neg h]
    simp
  | flag i c h =>
    have hne : S.T.children v ≠ [] := fun hnil => by simp [hnil] at h
    refine hmid ?_
    rw [middle, if_neg hne]
    have hacks : ((S.T.children v).map fun c => Instr.putScalar B.word 1 c)[i]? = some (.putScalar B.word 1 c) := by
      simp [h]
    have := getElem?_append_of_right ((S.T.children v).map fun c => Instr.putNb B.target (.sym (S.sendBuf B v)) B.len c)
      (getElem?_append_of_right [Instr.putWait, .fence] hacks)
    rw [show (S.T.children v).length + 2 + i = ((S.T.children v).map fun c => Instr.putNb B.target (.sym (S.sendBuf B v))
      B.len c).length + ([Instr.putWait, .fence].length + i) by simp; omega]
    exact this
  | gather h hc =>
    have hwait : (S.gather B v)[0]? =
        some (.waitUntil B.word .EQ ((S.T.children v).length + (if v = S.T.root then 0 else 1) : ℕ)) := by
      simp [Shape.gather, h, hc]
    exact getElem?_append_of_right (S.front B v) (getElem?_append_of_right (S.middle B v)
      (getElem?_append_of_left hwait))
  | clear h =>
    refine hback (x := 0) (getElem?_append_of_left ?_)
    simp [back, h]
  | cleared h =>
    refine hback (x := 1) (getElem?_append_of_left ?_)
    simp [back, h]

/-- the body of a node, instruction by instruction -/
theorem nodeAt_of_getElem {v t : ℕ} {ins : Instr} (h : (S.node B v)[t]? = some ins) : S.NodeAt B v t ins := by
  rcases getElem?_append_cases h with h | ⟨x, rfl, h1⟩
  · -- the front
    unfold front at h
    by_cases hv : v = S.T.root
    · simp [hv] at h
    · rw [if_neg hv] at h
      match t, h with
      | 0, h => simp at h; subst h; exact .arrive hv
      | t + 1, h =>
        by_cases hc : B.complete ∧ ¬ S.late
        · rw [if_pos hc] at h
          match t, h with
          | 0, h => simp at h; subst h; exact .at_pos (.ack hv hc.1) (by simp [ackPos, hc.2])
          | t + 1, h => simp at h
        · rw [if_neg hc] at h
          simp at h
  rcases getElem?_append_cases h1 with h | ⟨y, rfl, h2⟩
  · -- the data, and the words behind them
    unfold middle at h
    by_cases hn : S.T.children v = []
    · simp [hn] at h
    · rw [if_neg hn] at h
      rcases getElem?_append_cases h with h | ⟨y, rfl, h3⟩
      · rw [List.getElem?_map] at h
        obtain ⟨c, hc, rfl⟩ := Option.map_eq_some_iff.mp h
        exact .data x c hc
      · rw [List.length_map]
        match y, h3 with
        | 0, h => simp at h; subst h; exact .putWait hn
        | 1, h => simp at h; subst h; exact .fence hn
        | y + 2, h =>
          simp only [List.cons_append, List.nil_append, List.getElem?_cons_succ, List.getElem?_map] at h
          obtain ⟨c, hc, rfl⟩ := Option.map_eq_some_iff.mp h
          refine .at_pos (.flag y c hc) ?_
          simp only [flagPos, startPos]
          omega
  rcases getElem?_append_cases h2 with h | ⟨z, rfl, h3⟩
  · unfold Shape.gather at h
    by_cases hc : B.complete ∧ S.T.children v ≠ []
    · rw [if_pos hc] at h
      match y, h with
      | 0, h =>
        simp only [List.getElem?_cons_zero, Option.some.injEq] at h
        subst h
        exact .gather hc.2 hc.1
      | y + 1, h => simp at h
    · simp [hc] at h
  have hpos : (S.front B v).length + ((S.middle B v).length + ((S.gather B v).length + z)) = S.clearPos B v + z := by
    simp only [clearPos, gatherPos, startPos]
    omega
  rw [hpos]
  rcases getElem?_append_cases h3 with h | ⟨w, rfl, h4⟩
  · unfold back at h
    by_cases hc : S.Clears B v
    · rw [if_pos hc] at h
      match z, h with
      | 0, h => simp at h; subst h; exact .clear hc
      | 1, h => simp at h; subst h; exact .cleared hc
      | z + 2, h => simp at h
    · simp [hc] at h
  · unfold lateAck at h4
    by_cases hc : B.complete ∧ S.late ∧ v ≠ S.T.root
    · rw [if_pos hc] at h4
      match w, h4 with
      | 0, h => simp at h; subst h; exact .at_pos (.ack hc.2.2 hc.1) (by simp [ackPos, hc.2.1])
      | w + 1, h => simp at h
    · simp [hc] at h4

theorem nodeAt_inj {v t : ℕ} {ins ins' : Instr} (h : S.NodeAt B v t ins) (h' : S.NodeAt B v t ins') : ins = ins' := by
  have := h.getElem
  rw [h'.getElem, Option.some.injEq] at this
  exact this.symm

theorem startPos_pos {v : ℕ} (h : v ≠ S.T.root) : 1 ≤ S.startPos B v := by
  simp [startPos, front, h]

theorem length_middle (v : ℕ) : (S.middle B v).length =
    if S.T.children v = [] then 0 else 2 * (S.T.children v).length + 2 := by
  unfold middle
  split_ifs
  · rfl
  · simp
    omega

theorem startPos_le (v : ℕ) : S.startPos B v ≤ S.gatherPos B v ∧ S.gatherPos B v ≤ S.clearPos B v := by
  simp only [gatherPos, clearPos]
  omega

theorem gatherPos_lt {v : ℕ} (h : S.T.children v ≠ []) (hc : B.complete = true) : S.gatherPos B v < S.clearPos B v := by
  simp [clearPos, gather, h, hc]

theorem ackPos_pos {v : ℕ} (h : v ≠ S.T.root) : 1 ≤ S.ackPos B v := by
  have h1 := startPos_pos (B := B) h
  have h2 := startPos_le (S := S) (B := B) v
  unfold ackPos
  split_ifs <;> omega

end Shape

/-! ## A broadcast at the end of a program -/

/-- the programs of the nodes end with the broadcast, from `off` on; what comes before does not touch its word -/
structure Embed {α : Type*} (M : Machine α) (S : Shape) (B : BcastArgs) (off : ℕ → ℕ) : Prop where
  edge : S.T.children S.T.root ≠ []
  mem : ∀ v t ins, M.prog v t = some ins → v ∈ S.T.nodes
  code : ∀ v ∈ S.T.nodes, ∀ x, M.prog v (off v + x) = (S.node B v)[x]?
  before : ∀ v t ins, M.prog v t = some ins → t < off v → ins.word ≠ some B.word

/-- once the root has started, nothing before the broadcast changes memory any more -/
def Calm {α : Type*} (M : Machine α) (S : Shape) (off : ℕ → ℕ) (s : St α) : Prop :=
  off S.T.root < s.pc S.T.root → ∀ v ∈ S.T.nodes,
    (∀ t ins, s.pc v ≤ t → t < off v → M.prog v t = some ins → ins.silent = true) ∧
    ∀ t < off v, ∀ j < M.partsAt v t, s.done v t j = true

section
variable {α : Type*} (S : Shape) (B : BcastArgs) (off : ℕ → ℕ)

/-- where the parent of v sends v its data, and the word behind them -/
def dataOf (v : ℕ) : ℕ := off (S.T.parent v) + S.dataPos B (S.T.parent v) ((S.T.children (S.T.parent v)).idxOf v)
def flagOf (v : ℕ) : ℕ := off (S.T.parent v) + S.flagPos B (S.T.parent v) ((S.T.children (S.T.parent v)).idxOf v)

/-- the children of v whose acknowledgements have arrived -/
def acked (s : St α) (v : ℕ) : Finset ℕ :=
  (S.T.children v).toFinset.filter fun c => B.complete = true ∧ s.done c (off c + S.ackPos B c) 0 = true

/-- what the word of v holds until it is cleared -/
def bword (s : St α) (v : ℕ) : ℤ :=
  (if v ≠ S.T.root ∧ s.done (S.T.parent v) (flagOf S B off v) 0 = true then 1 else 0) + ((acked S B off s v).card : ℤ)

/-- the broadcast of the values V: waits got what they waited for, and what words and targets hold -/
structure BInv (V : ℕ → α) (s : St α) : Prop where
  arrived : ∀ v ∈ S.T.nodes, v ≠ S.T.root → off v < s.pc v → s.done (S.T.parent v) (flagOf S B off v) 0 = true
  gathered : B.complete = true → ∀ v ∈ S.T.nodes, off v + S.gatherPos B v < s.pc v → ∀ c ∈ S.T.children v,
    s.done c (off c + S.ackPos B c) 0 = true
  cleared : ∀ v ∈ S.T.nodes, v ≠ S.T.root ∨ B.complete = true → off v + S.clearPos B v + 1 < s.pc v →
    s.done v (off v + S.clearPos B v) 0 = true
  word : ∀ v ∈ S.T.nodes, s.cell v B.word =
    if s.done v (off v + S.clearPos B v) 0 = true ∧ S.Clears B v then 0 else bword S B off s v
  cap : ∀ v ∈ S.T.nodes, ∀ i < (S.T.children v).length, ∀ j x, s.cap v (off v + S.dataPos B v i) j = some x → x = V j
  got : ∀ v ∈ S.T.nodes, v ≠ S.T.root → ∀ j < B.len, s.done (S.T.parent v) (dataOf S B off v) j = true →
    s.mem v (.sym (B.target + j)) = V j
  root : off S.T.root < s.pc S.T.root → ∀ j < B.len, s.mem S.T.root (.sym (B.source + j)) = V j

end

section
variable {α : Type*} {M : Machine α} {S : Shape} {B : BcastArgs} {off : ℕ → ℕ} {V : ℕ → α} {s : St α}

theorem getElem_idxOf {v : ℕ} (hv : v ∈ S.T.nodes) (h : v ≠ S.T.root) :
    (S.T.children (S.T.parent v))[(S.T.children (S.T.parent v)).idxOf v]? = some v := by
  have hmem := S.T.mem_children_parent hv h
  rw [List.getElem?_eq_getElem (List.idxOf_lt_length_of_mem hmem), List.getElem_idxOf]

theorem idxOf_lt {v : ℕ} (hv : v ∈ S.T.nodes) (h : v ≠ S.T.root) :
    (S.T.children (S.T.parent v)).idxOf v < (S.T.children (S.T.parent v)).length :=
  List.idxOf_lt_length_of_mem (S.T.mem_children_parent hv h)

/-- the child a message of v goes to -/
theorem child_eq {v i c : ℕ} (hv : v ∈ S.T.nodes) (h : (S.T.children v)[i]? = some c) :
    c ∈ S.T.nodes ∧ c ≠ S.T.root ∧ S.T.parent c = v ∧ (S.T.children v).idxOf c = i := by
  have hmem := List.mem_of_getElem? h
  refine ⟨S.T.child_mem hv hmem, S.T.child_ne_root hv hmem, S.T.parent_child hv hmem, ?_⟩
  obtain ⟨hi, rfl⟩ := List.getElem?_eq_some_iff.mp h
  exact (S.T.nodup v hv).idxOf_getElem i hi

variable (E : Embed M S B off)
include E

theorem Embed.at_node {v t : ℕ} {ins : Instr} (hp : M.prog v t = some ins) (ht : off v ≤ t) :
    v ∈ S.T.nodes ∧ ∃ x, t = off v + x ∧ S.NodeAt B v x ins := by
  have hv := E.mem v t ins hp
  obtain ⟨x, rfl⟩ : ∃ x, t = off v + x := ⟨t - off v, by omega⟩
  rw [E.code v hv] at hp
  exact ⟨hv, x, rfl, Shape.nodeAt_of_getElem hp⟩

theorem Embed.prog_of {v x : ℕ} {ins : Instr} (hv : v ∈ S.T.nodes) (h : S.NodeAt B v x ins) :
    M.prog v (off v + x) = some ins := by
  rw [E.code v hv]
  exact h.getElem

omit E in
/-- nobody starts before the root -/
theorem BInv.started (h : BInv S B off V s) (hh : M.Hist s) :
    ∀ v ∈ S.T.nodes, off v < s.pc v → off S.T.root < s.pc S.T.root := by
  refine S.T.down (fun h => h) ?_
  intro v hv hr ih hpc
  refine ih ?_
  have := (hh.doneIssued _ _ _ (h.arrived v hv hr hpc)).1
  unfold flagOf at this
  omega

/-- the data are behind the word -/
theorem BInv.received (h : BInv S B off V s) (hh : M.Hist s) {v : ℕ} (hv : v ∈ S.T.nodes) (hr : v ≠ S.T.root)
    (hpc : off v < s.pc v) {j : ℕ} (hj : j < B.len) : s.done (S.T.parent v) (dataOf S B off v) j = true := by
  have hp := S.T.parent_mem v hv
  have hc := getElem_idxOf hv hr
  have hlt := idxOf_lt hv hr
  have hne : S.T.children (S.T.parent v) ≠ [] := fun hnil => by simp [hnil] at hlt
  have hdata := E.prog_of hp (.data _ v hc)
  refine hh.fenced _ _ _ (h.arrived v hv hr hpc) (off (S.T.parent v) + S.dataPos B (S.T.parent v)
    ((S.T.children (S.T.parent v)).length + 1)) ?_ (E.prog_of hp (.fence hne)) _ ?_ ?_ j ?_
  · simp only [flagOf, Shape.flagPos, Shape.dataPos]
    omega
  · simp only [dataOf, Shape.dataPos]
    omega
  · rw [dataOf, flagOf, destAt_eq _ hdata, destAt_eq _ (E.prog_of hp (.flag _ v hc))]
    rfl
  · rw [dataOf, partsAt_eq _ hdata]
    exact hj

/-! ## Before the broadcast -/

omit E in
/-- nothing has been sent: the word is zero and there is nothing else to say -/
theorem bword_idle (hh : M.Hist s) (hpc : ∀ v ∈ S.T.nodes, s.pc v ≤ off v) {v : ℕ} (hv : v ∈ S.T.nodes) :
    bword S B off s v = 0 ∧ s.done v (off v + S.clearPos B v) 0 = false := by
  have hnone : ∀ w ∈ S.T.nodes, ∀ x j, s.done w (off w + x) j = false := by
    intro w hw x j
    by_contra hd
    have := (hh.doneIssued _ _ _ (by simpa using hd)).1
    have := hpc w hw
    omega
  refine ⟨?_, hnone v hv _ _⟩
  have hflag : ¬ (v ≠ S.T.root ∧ s.done (S.T.parent v) (flagOf S B off v) 0 = true) := by
    rintro ⟨-, hd⟩
    rw [flagOf, hnone _ (S.T.parent_mem v hv)] at hd
    exact absurd hd (by decide)
  have hacks : acked S B off s v = ∅ := by
    refine Finset.filter_false_of_mem fun c hc => ?_
    rintro ⟨-, hd⟩
    rw [hnone c (S.T.child_mem hv (by simpa using hc))] at hd
    exact absurd hd (by decide)
  rw [bword, if_neg hflag, hacks]
  rfl

omit E in
theorem BInv.idle (hh : M.Hist s) (hpc : ∀ v ∈ S.T.nodes, s.pc v ≤ off v)
    (hcell : ∀ v ∈ S.T.nodes, s.cell v B.word = 0) : BInv S B off V s := by
  refine ⟨?_, ?_, ?_, ?_, ?_, ?_, ?_⟩
  · intro v hv _ hlt
    have := hpc v hv
    omega
  · intro _ v hv hlt
    have := hpc v hv
    omega
  · intro v hv _ hlt
    have := hpc v hv
    omega
  · intro v hv
    rw [hcell v hv, (bword_idle hh hpc hv).1, ite_self]
  · intro v hv i _ j x hx
    have := hh.capIssued _ _ _ _ hx
    have := hpc v hv
    omega
  · intro v hv _ j _ hd
    have := (hh.doneIssued _ _ _ hd).1
    have := hpc _ (S.T.parent_mem v hv)
    unfold dataOf at *
    omega
  · intro hlt
    have := hpc _ S.T.root_mem
    omega

omit E in
/-- as long as the root has not started -/
theorem BInv.not_started (h : BInv S B off V s) (hh : M.Hist s) (hroot : ¬ off S.T.root < s.pc S.T.root) :
    (∀ v ∈ S.T.nodes, s.pc v ≤ off v) ∧ ∀ v ∈ S.T.nodes, s.cell v B.word = 0 := by
  have hpc : ∀ v ∈ S.T.nodes, s.pc v ≤ off v := by
    intro v hv
    by_contra hlt
    exact hroot (h.started hh v hv (by omega))
  refine ⟨hpc, fun v hv => ?_⟩
  rw [h.word v hv, (bword_idle hh hpc hv).1, ite_self]

/-- an instruction before the broadcast -/
theorem BInv.exec_before (h : BInv S B off V s) (hh : M.Hist s) (hcalm : Calm M S off s) {v : ℕ} {ins : Instr}
    (hp : M.prog v (s.pc v) = some ins) (he : M.Enabled s v ins) (hlt : s.pc v < off v) :
    BInv S B off V (advance (M.effect s v ins) v) := by
  have hv := E.mem v _ ins hp
  have hpc' : ∀ w ∈ S.T.nodes, s.pc w ≤ off w → (advance (M.effect s v ins) v).pc w ≤ off w := by
    intro w hw hle
    by_cases hwv : w = v
    · subst hwv
      rw [advance_pc_self, effect_pc]
      omega
    · rw [advance_pc_other _ hwv, effect_pc]
      exact hle
  by_cases hroot : off S.T.root < s.pc S.T.root
  · -- the broadcast has started without v: a silent instruction is left
    have heff := M.effect_silent s v ((hcalm hroot v hv).1 _ ins (le_refl _) hlt hp)
    have hpass : ∀ w x, off w + x < (advance s v).pc w → off w + x < s.pc w := by
      intro w x hx
      by_cases hwv : w = v
      · subst hwv
        rw [advance_pc_self] at hx
        omega
      · rwa [advance_pc_other _ hwv] at hx
    rw [heff]
    exact ⟨fun w hw hr hx => h.arrived w hw hr (hpass w 0 hx), fun hc w hw hx => h.gathered hc w hw (hpass w _ hx),
      fun w hw hc hx => h.cleared w hw hc (hpass w (S.clearPos B w + 1) hx), h.word, h.cap, h.got,
      fun hx => h.root (hpass _ 0 hx)⟩
  · obtain ⟨hpc, hcell⟩ := h.not_started hh hroot
    refine BInv.idle (hh.exec hp he) (fun w hw => hpc' w hw (hpc w hw)) ?_
    intro w hw
    rw [advance_cell, effect_cell_other M s v (E.before v _ ins hp hlt)]
    exact hcell w hw

/-- a delivery of something sent before the broadcast -/
theorem BInv.deliver_before (h : BInv S B off V s) (hh : M.Hist s) (hcalm : Calm M S off s) {v t j : ℕ} {ins : Instr}
    (hp : M.prog v t = some ins) (hd : M.Deliverable s v t j) (hlt : t < off v) :
    BInv S B off V (mark (M.arrive s v t j ins) v t j) := by
  have hv := E.mem v _ ins hp
  have hroot : ¬ off S.T.root < s.pc S.T.root := by
    intro hstart
    have := (hcalm hstart v hv).2 t hlt j hd.2.1
    rw [hd.2.2.1] at this
    exact absurd this (by decide)
  obtain ⟨hpc, hcell⟩ := h.not_started hh hroot
  refine BInv.idle (hh.deliver hd) ?_ ?_
  · intro w hw
    rw [mark_pc, arrive_pc]
    exact hpc w hw
  · intro w hw
    rw [mark_cell, arrive_cell_other M s v t j (E.before v _ ins hp hlt)]
    exact hcell w hw

/-! ## Waits -/

omit E in
/-- nobody acknowledges to a node that has not passed the data on -/
theorem BInv.acked_empty (h : BInv S B off V s) (hh : M.Hist s) {v : ℕ} (hv : v ∈ S.T.nodes) (hpc : s.pc v ≤ off v) :
    acked S B off s v = ∅ := by
  refine Finset.filter_false_of_mem fun c hc => ?_
  rintro ⟨-, hd⟩
  have hc : c ∈ S.T.children v := by simpa using hc
  have hcm := S.T.child_mem hv hc
  have hcr := S.T.child_ne_root hv hc
  have hpos := Shape.ackPos_pos (B := B) hcr
  have hlt := (hh.doneIssued _ _ _ hd).1
  have hflag := (hh.doneIssued _ _ _ (h.arrived c hcm hcr (by omega))).1
  rw [flagOf, S.T.parent_child hv hc] at hflag
  omega

omit E in
theorem acked_all {v : ℕ} (hv : v ∈ S.T.nodes) (h : (acked S B off s v).card = (S.T.children v).length) :
    ∀ c ∈ S.T.children v, s.done c (off c + S.ackPos B c) 0 = true := by
  rw [← List.toFinset_card_of_nodup (S.T.nodup v hv)] at h
  intro c hc
  exact (Finset.card_filter_eq_iff.mp h c (by simpa using hc)).2

omit E in
/-- a clear that has not been issued has not arrived -/
theorem BInv.not_cleared (hh : M.Hist s) {v : ℕ} (hpc : s.pc v ≤ off v + S.clearPos B v) :
    ¬ (s.done v (off v + S.clearPos B v) 0 = true ∧ S.Clears B v) := by
  rintro ⟨hd, -⟩
  have := (hh.doneIssued _ _ _ hd).1
  omega

omit E in
theorem BInv.pass_arrive (h : BInv S B off V s) (hh : M.Hist s) {v : ℕ} (hv : v ∈ S.T.nodes) (hpc : s.pc v = off v)
    (he : s.cell v B.word ≠ 0) : s.done (S.T.parent v) (flagOf S B off v) 0 = true := by
  rw [h.word v hv, if_neg (BInv.not_cleared hh (by omega)), bword, h.acked_empty hh hv (by omega)] at he
  by_contra hd
  rw [if_neg (fun hc => hd hc.2)] at he
  exact he (by simp)

omit E in
theorem BInv.pass_gather (h : BInv S B off V s) (hh : M.Hist s) {v : ℕ} (hv : v ∈ S.T.nodes)
    (hne : S.T.children v ≠ []) (hc : B.complete = true) (hpc : s.pc v = off v + S.gatherPos B v)
    (he : s.cell v B.word = ((S.T.children v).length + (if v = S.T.root then 0 else 1) : ℕ)) :
    ∀ c ∈ S.T.children v, s.done c (off c + S.ackPos B c) 0 = true := by
  have hlt := Shape.gatherPos_lt hne hc
  refine acked_all hv ?_
  rw [h.word v hv, if_neg (BInv.not_cleared hh (by omega)), bword] at he
  by_cases hr : v = S.T.root
  · rw [if_neg (fun hc => hc.1 hr), if_pos hr] at he
    push_cast at he
    omega
  · have hstart := Shape.startPos_pos (B := B) hr
    have hpos := Shape.startPos_le (S := S) (B := B) v
    have hflag := h.arrived v hv hr (by omega)
    rw [if_pos ⟨hr, hflag⟩, if_neg hr] at he
    push_cast at he
    omega

theorem BInv.pass_cleared (h : BInv S B off V s) {v : ℕ} (hv : v ∈ S.T.nodes)
    (hcond : v ≠ S.T.root ∨ B.complete = true) (hpc : s.pc v = off v + S.clearPos B v + 1)
    (he : s.cell v B.word = 0) : s.done v (off v + S.clearPos B v) 0 = true := by
  have hpos := Shape.startPos_le (S := S) (B := B) v
  by_contra hd
  rw [h.word v hv, if_neg (fun hc => hd hc.1), bword] at he
  by_cases hr : v = S.T.root
  · -- the root has its children's acknowledgements
    have hc := hcond.resolve_left (fun hne => hne hr)
    have hne : S.T.children v ≠ [] := hr ▸ E.edge
    have hlt := Shape.gatherPos_lt hne hc
    have hall := h.gathered hc v hv (by omega)
    have hcard : (acked S B off s v).card = (S.T.children v).length := by
      rw [← List.toFinset_card_of_nodup (S.T.nodup v hv), acked]
      exact Finset.card_filter_eq_iff.mpr fun c hcm => ⟨hc, hall c (by simpa using hcm)⟩
    have hpos := List.length_pos_of_ne_nil hne
    rw [if_neg (fun hc => hc.1 hr), hcard] at he
    omega
  · have hflag := h.arrived v hv hr (by omega)
    rw [if_pos ⟨hr, hflag⟩] at he
    omega

/-- an instruction of the broadcast -/
theorem BInv.exec_node (h : BInv S B off V s) (hh : M.Hist s) {v : ℕ} {ins : Instr}
    (hp : M.prog v (s.pc v) = some ins) (he : M.Enabled s v ins) (hle : off v ≤ s.pc v)
    (hready : s.pc S.T.root = off S.T.root → ∀ j < B.len, s.mem S.T.root (.sym (B.source + j)) = V j) :
    BInv S B off V (advance (M.effect s v ins) v) := by
  obtain ⟨hv, x, hx, hat⟩ := E.at_node hp hle
  have heff : M.effect s v ins = s := by cases hat <;> rfl
  rw [heff]
  -- the position a node passes in this step
  have hpass : ∀ w y, off w + y < (advance s v).pc w → off w + y < s.pc w ∨ (w = v ∧ y = x) := by
    intro w y hlt
    by_cases hwv : w = v
    · subst hwv
      rw [advance_pc_self] at hlt
      omega
    · rw [advance_pc_other _ hwv] at hlt
      exact Or.inl hlt
  refine ⟨?_, ?_, ?_, h.word, h.cap, h.got, ?_⟩
  · intro w hw hr hlt
    rcases hpass w 0 (by omega) with hlt | ⟨rfl, rfl⟩
    · exact h.arrived w hw hr (by omega)
    · have hins := Shape.nodeAt_inj hat (.arrive hr)
      subst hins
      exact h.pass_arrive hh hw (by omega) he
  · intro hc w hw hlt c hcm
    rcases hpass w _ hlt with hlt | ⟨rfl, heq⟩
    · exact h.gathered hc w hw hlt c hcm
    · have hne : S.T.children w ≠ [] := fun hnil => by simp [hnil] at hcm
      have hins := Shape.nodeAt_inj hat (.at_pos (.gather hne hc) heq)
      subst hins
      exact h.pass_gather hh hw hne hc (by omega) he c hcm
  · intro w hw hcond hlt
    rcases hpass w (S.clearPos B w + 1) (by omega) with hlt | ⟨rfl, heq⟩
    · exact h.cleared w hw hcond (by omega)
    · have hclears : S.Clears B w := by
        rintro ⟨-, hroot, hcomp⟩
        rcases hcond with hne | hcomp'
        · exact hne hroot
        · rw [hcomp] at hcomp'
          exact absurd hcomp' (by decide)
      have hins := Shape.nodeAt_inj hat (.at_pos (.cleared hclears) heq)
      subst hins
      exact h.pass_cleared E hw hcond (by omega) he
  · intro hlt j hj
    rcases hpass _ 0 (by omega) with hlt | ⟨rfl, h0⟩
    · exact h.root (by omega) j hj
    · exact hready (by omega) j hj

/-! ## Deliveries -/

section
variable {s' : St α} {v x j : ℕ} {ins : Instr} (hat : S.NodeAt B v x ins)
  (hdone : ∀ v' t' y, s'.done v' t' y = true ↔ (v' = v ∧ t' = off v + x ∧ y = j) ∨ s.done v' t' y = true)
include hat hdone
omit E

/-- a word is written by the parent's word behind the data and by the acknowledgements of the children -/
theorem bword_eq {w : ℕ} (hw : w ∈ S.T.nodes) (hflag : w ≠ S.T.root → S.T.parent w = v → ins ≠ .putScalar B.word 1 w)
    (hack : v ∈ S.T.children w → ins ≠ .atomicAdd B.word 1 w) : bword S B off s' w = bword S B off s w := by
  have h1 : (w ≠ S.T.root ∧ s'.done (S.T.parent w) (flagOf S B off w) 0 = true) ↔
      (w ≠ S.T.root ∧ s.done (S.T.parent w) (flagOf S B off w) 0 = true) := by
    refine and_congr_right fun hr => ?_
    rw [hdone]
    refine ⟨?_, Or.inr⟩
    rintro (⟨hp, hpos, -⟩ | hd)
    · have hnode := Shape.NodeAt.flag (B := B) _ w (getElem_idxOf hw hr)
      rw [flagOf] at hpos
      rw [hp] at hpos hnode
      exact absurd (Shape.nodeAt_inj hat (hnode.at_pos (by omega))) (hflag hr hp)
    · exact hd
  have h2 : acked S B off s' w = acked S B off s w := by
    refine Finset.filter_congr fun c hc => and_congr_right fun hcomp => ?_
    have hc : c ∈ S.T.children w := by simpa using hc
    rw [hdone]
    refine ⟨?_, Or.inr⟩
    rintro (⟨rfl, hpos, -⟩ | hd)
    · have hnode := Shape.NodeAt.ack (S.T.child_ne_root hw hc) hcomp
      rw [S.T.parent_child hw hc] at hnode
      exact absurd (Shape.nodeAt_inj hat (hnode.at_pos (by omega))) (hack hc)
    · exact hd
  rw [bword, bword, h2]
  simp only [h1]

theorem clear_eq {w : ℕ} (hclear : w = v → ins ≠ .putScalar B.word 0 w) :
    (s'.done w (off w + S.clearPos B w) 0 = true ∧ S.Clears B w) ↔
      (s.done w (off w + S.clearPos B w) 0 = true ∧ S.Clears B w) := by
  refine and_congr_left fun hc => ?_
  rw [hdone]
  refine ⟨?_, Or.inr⟩
  rintro (⟨rfl, hpos, -⟩ | hd)
  · exact absurd (Shape.nodeAt_inj hat (.at_pos (.clear hc) (by omega))) (hclear rfl)
  · exact hd

/-- a delivery that is not of data leaves data alone -/
theorem dataOf_eq {w y : ℕ} (hw : w ∈ S.T.nodes) (hr : w ≠ S.T.root) (hins : ∀ b, ins ≠ .putNb B.target b B.len w)
    (hd : s'.done (S.T.parent w) (dataOf S B off w) y = true) : s.done (S.T.parent w) (dataOf S B off w) y = true := by
  rcases (hdone _ _ _).mp hd with ⟨hp, hpos, -⟩ | hd
  · have hnode := Shape.NodeAt.data (B := B) _ w (getElem_idxOf hw hr)
    rw [dataOf] at hpos
    rw [hp] at hpos hnode
    exact absurd (Shape.nodeAt_inj hat (hnode.at_pos (by omega))) (hins _)
  · exact hd

/-- a delivery that is not of data: only the words have to be looked at -/
theorem BInv.deliver_word (h : BInv S B off V s) (hlat : Later s s') (hpc : s'.pc = s.pc) (hcap : s'.cap = s.cap)
    (hmem : s'.mem = s.mem) (hins : ∀ w b, ins ≠ .putNb B.target b B.len w)
    (hword : ∀ w ∈ S.T.nodes, s'.cell w B.word =
      if s'.done w (off w + S.clearPos B w) 0 = true ∧ S.Clears B w then 0 else bword S B off s' w) :
    BInv S B off V s' where
  arrived w hw hr hlt := hlat.done _ _ _ (h.arrived w hw hr (by rwa [hpc] at hlt))
  gathered hc w hw hlt c hcm := hlat.done _ _ _ (h.gathered hc w hw (by rwa [hpc] at hlt) c hcm)
  cleared w hw hcond hlt := hlat.done _ _ _ (h.cleared w hw hcond (by rwa [hpc] at hlt))
  word := hword
  cap := by rw [hcap]; exact h.cap
  got w hw hr y hy hd := by rw [hmem]; exact h.got w hw hr y hy (dataOf_eq hat hdone hw hr (hins w) hd)
  root hlt := by rw [hmem]; exact h.root (by rwa [hpc] at hlt)

end

omit E in
/-- data arrive at a child -/
theorem BInv.deliver_data (h : BInv S B off V s) {s' : St α} {v i c j : ℕ} {y : α} (hv : v ∈ S.T.nodes)
    (hc : (S.T.children v)[i]? = some c) (hy : s.cap v (off v + S.dataPos B v i) j = some y) (hlat : Later s s')
    (hpc : s'.pc = s.pc) (hcap : s'.cap = s.cap) (hcell : s'.cell = s.cell)
    (hmem : s'.mem = setLoc s.mem c (.sym (B.target + j)) y)
    (hdone : ∀ v' t' x, s'.done v' t' x = true ↔ (v' = v ∧ t' = off v + S.dataPos B v i ∧ x = j) ∨ s.done v' t' x = true) :
    BInv S B off V s' := by
  have hat : S.NodeAt B v (S.dataPos B v i) _ := .data i c hc
  have hi := (List.getElem?_eq_some_iff.mp hc).1
  have hval := h.cap v hv i hi j y hy
  obtain ⟨hcm, hcr, hcp, hidx⟩ := child_eq hv hc
  refine ⟨?_, ?_, ?_, ?_, by rw [hcap]; exact h.cap, ?_, ?_⟩
  · intro w hw hr hlt
    exact hlat.done _ _ _ (h.arrived w hw hr (by rwa [hpc] at hlt))
  · intro hcomp w hw hlt b hb
    exact hlat.done _ _ _ (h.gathered hcomp w hw (by rwa [hpc] at hlt) b hb)
  · intro w hw hcond hlt
    exact hlat.done _ _ _ (h.cleared w hw hcond (by rwa [hpc] at hlt))
  · intro w hw
    rw [hcell, bword_eq hat hdone hw (fun _ _ => by simp) (fun _ => by simp)]
    simp only [clear_eq hat hdone (w := w) fun _ => by simp]
    exact h.word w hw
  · intro w hw hr k hk hd
    rw [hmem, setLoc_apply]
    split_ifs with hsame
    · have hkj : k = j := by simpa using hsame.2
      rw [hval, hkj]
    · refine h.got w hw hr k hk ?_
      rcases (hdone _ _ _).mp hd with ⟨hp, hpos, hkj⟩ | hd
      · -- the same message goes to the same child
        rw [dataOf, hp] at hpos
        have hidx' : (S.T.children v).idxOf w = i := by
          simp only [Shape.dataPos] at hpos
          omega
        have hw' := getElem_idxOf hw hr
        rw [hp, hidx', hc, Option.some.injEq] at hw'
        exact absurd ⟨hw'.symm, by rw [hkj]⟩ hsame
      · exact hd
  · intro hlt k hk
    rw [hpc] at hlt
    rw [hmem, setLoc_apply, if_neg (fun hsame => hcr hsame.1.symm)]
    exact h.root hlt k hk

omit E in
/-- the word behind the data arrives -/
theorem BInv.deliver_flag (h : BInv S B off V s) (hh : M.Hist s) {s' : St α} {v i c : ℕ} (hv : v ∈ S.T.nodes)
    (hc : (S.T.children v)[i]? = some c) (hnd : s.done v (off v + S.flagPos B v i) 0 = false) (hlat : Later s s')
    (hpc : s'.pc = s.pc) (hcap : s'.cap = s.cap) (hmem : s'.mem = s.mem)
    (hcell : s'.cell = setCell s.cell c B.word 1)
    (hdone : ∀ v' t' x, s'.done v' t' x = true ↔ (v' = v ∧ t' = off v + S.flagPos B v i ∧ x = 0) ∨ s.done v' t' x = true) :
    BInv S B off V s' := by
  have hat : S.NodeAt B v (S.flagPos B v i) _ := .flag i c hc
  obtain ⟨hcm, hcr, hcp, hidx⟩ := child_eq hv hc
  refine h.deliver_word hat hdone hlat hpc hcap hmem (fun _ _ => by simp) fun w hw => ?_
  rw [hcell, setCell_apply]
  by_cases hwc : w = c
  · subst hwc
    have hflag : flagOf S B off w = off v + S.flagPos B v i := by rw [flagOf, hcp, hidx]
    -- the child is still at its first wait
    have hidle : s.pc w ≤ off w := by
      by_contra hlt
      have := h.arrived w hw hcr (by omega)
      rw [hcp, hflag, hnd] at this
      exact absurd this (by decide)
    have hack : acked S B off s' w = ∅ := by
      rw [← h.acked_empty hh hw hidle]
      refine Finset.filter_congr fun b hb => and_congr_right fun hcomp => ?_
      rw [hdone]
      refine ⟨?_, Or.inr⟩
      rintro (⟨rfl, hpos, -⟩ | hd)
      · have hb : b ∈ S.T.children w := by simpa using hb
        exact absurd (Shape.nodeAt_inj hat (.at_pos (.ack (S.T.child_ne_root hw hb) hcomp) (by omega))) (by simp)
      · exact hd
    have hclear : ¬ (s'.done w (off w + S.clearPos B w) 0 = true ∧ S.Clears B w) := by
      rw [clear_eq hat hdone fun _ => by simp]
      exact BInv.not_cleared hh (by omega)
    rw [if_pos ⟨rfl, rfl⟩, if_neg hclear, bword, hack, hcp, hflag,
      if_pos ⟨hcr, (hdone _ _ _).mpr (Or.inl ⟨rfl, rfl, rfl⟩)⟩]
    rfl
  · have hne : Instr.putScalar B.word 1 c ≠ .putScalar B.word 1 w := by
      simp only [ne_eq, Instr.putScalar.injEq, true_and]
      exact fun heq => hwc heq.symm
    rw [if_neg (fun hsame => hwc hsame.1), bword_eq hat hdone hw (fun _ _ => hne) (fun _ => by simp)]
    simp only [clear_eq hat hdone (w := w) fun _ => by simp]
    exact h.word w hw

omit E in
/-- an acknowledgement arrives -/
theorem BInv.deliver_ack (h : BInv S B off V s) (hh : M.Hist s) {s' : St α} {v : ℕ} (hv : v ∈ S.T.nodes)
    (hr : v ≠ S.T.root) (hcomp : B.complete = true) (hnd : s.done v (off v + S.ackPos B v) 0 = false)
    (hlat : Later s s') (hpc : s'.pc = s.pc) (hcap : s'.cap = s.cap) (hmem : s'.mem = s.mem)
    (hcell : s'.cell = setCell s.cell (S.T.parent v) B.word (s.cell (S.T.parent v) B.word + 1))
    (hdone : ∀ v' t' x, s'.done v' t' x = true ↔ (v' = v ∧ t' = off v + S.ackPos B v ∧ x = 0) ∨ s.done v' t' x = true) :
    BInv S B off V s' := by
  have hat : S.NodeAt B v (S.ackPos B v) _ := .ack hr hcomp
  have hvc := S.T.mem_children_parent hv hr
  refine h.deliver_word hat hdone hlat hpc hcap hmem (fun _ _ => by simp) fun w hw => ?_
  rw [hcell, setCell_apply]
  by_cases hwp : w = S.T.parent v
  · subst hwp
    -- a node clears its word only when it has all acknowledgements
    have hclear : ¬ (s.done (S.T.parent v) (off (S.T.parent v) + S.clearPos B (S.T.parent v)) 0 = true ∧
        S.Clears B (S.T.parent v)) := by
      rintro ⟨hd, -⟩
      have hlt := (hh.doneIssued _ _ _ hd).1
      have hne : S.T.children (S.T.parent v) ≠ [] := fun hnil => by simp [hnil] at hvc
      have := Shape.gatherPos_lt hne hcomp
      have := h.gathered hcomp _ hw (by omega) v hvc
      rw [hnd] at this
      exact absurd this (by decide)
    have hclear' : ¬ (s'.done (S.T.parent v) (off (S.T.parent v) + S.clearPos B (S.T.parent v)) 0 = true ∧
        S.Clears B (S.T.parent v)) := by
      rw [clear_eq hat hdone fun _ => by simp]
      exact hclear
    have hnew : acked S B off s' (S.T.parent v) = insert v (acked S B off s (S.T.parent v)) := by
      ext b
      simp only [acked, Finset.mem_filter, Finset.mem_insert, List.mem_toFinset, hdone]
      constructor
      · rintro ⟨hb, hc, ⟨rfl, -, -⟩ | hd⟩
        · exact Or.inl rfl
        · exact Or.inr ⟨hb, hc, hd⟩
      · rintro (rfl | ⟨hb, hc, hd⟩)
        · exact ⟨hvc, hcomp, Or.inl ⟨rfl, rfl, trivial⟩⟩
        · exact ⟨hb, hc, Or.inr hd⟩
    have hnot : v ∉ acked S B off s (S.T.parent v) := by
      simp [acked, hnd]
    have hflag : (S.T.parent v ≠ S.T.root ∧ s'.done (S.T.parent (S.T.parent v)) (flagOf S B off (S.T.parent v)) 0 = true) ↔
        (S.T.parent v ≠ S.T.root ∧ s.done (S.T.parent (S.T.parent v)) (flagOf S B off (S.T.parent v)) 0 = true) := by
      refine and_congr_right fun hpr => ?_
      rw [hdone]
      refine ⟨?_, Or.inr⟩
      rintro (⟨hp, hpos, -⟩ | hd)
      · have hnode := Shape.NodeAt.flag (B := B) _ _ (getElem_idxOf hw hpr)
        rw [flagOf] at hpos
        rw [hp] at hpos hnode
        exact absurd (Shape.nodeAt_inj hat (hnode.at_pos (by omega))) (by simp)
      · exact hd
    have hword := h.word _ hw
    rw [if_neg hclear, bword] at hword
    rw [if_pos ⟨rfl, rfl⟩, if_neg hclear', bword, hnew, Finset.card_insert_of_notMem hnot, hword]
    simp only [hflag]
    push_cast
    ring
  · have hne : v ∈ S.T.children w → Instr.atomicAdd B.word 1 (S.T.parent v) ≠ .atomicAdd B.word 1 w := by
      intro _
      simp only [ne_eq, Instr.atomicAdd.injEq, true_and]
      exact fun heq => hwp heq.symm
    rw [if_neg (fun hsame => hwp hsame.1), bword_eq hat hdone hw (fun _ _ => by simp) hne]
    simp only [clear_eq hat hdone (w := w) fun _ => by simp]
    exact h.word w hw

omit E in
/-- a zero arrives -/
theorem BInv.deliver_clear (h : BInv S B off V s) {s' : St α} {v : ℕ} (hclears : S.Clears B v)
    (hlat : Later s s') (hpc : s'.pc = s.pc) (hcap : s'.cap = s.cap) (hmem : s'.mem = s.mem)
    (hcell : s'.cell = setCell s.cell v B.word 0)
    (hdone : ∀ v' t' x, s'.done v' t' x = true ↔ (v' = v ∧ t' = off v + S.clearPos B v ∧ x = 0) ∨ s.done v' t' x = true) :
    BInv S B off V s' := by
  have hat : S.NodeAt B v (S.clearPos B v) _ := .clear hclears
  refine h.deliver_word hat hdone hlat hpc hcap hmem (fun _ _ => by simp) fun w hw => ?_
  rw [hcell, setCell_apply]
  by_cases hwv : w = v
  · subst hwv
    rw [if_pos ⟨rfl, rfl⟩, if_pos ⟨(hdone _ _ _).mpr (Or.inl ⟨rfl, rfl, rfl⟩), hclears⟩]
  · have hne : w = v → Instr.putScalar B.word 0 v ≠ .putScalar B.word 0 w := fun heq => absurd heq hwv
    rw [if_neg (fun hsame => hwv hsame.1), bword_eq hat hdone hw (fun _ _ => by simp) (fun _ => by simp)]
    simp only [clear_eq hat hdone hne]
    exact h.word w hw

/-- a delivery of the broadcast -/
theorem BInv.deliver_node (h : BInv S B off V s) (hh : M.Hist s) {v t j : ℕ} {ins : Instr}
    (hp : M.prog v t = some ins) (hd : M.Deliverable s v t j) (hle : off v ≤ t) :
    BInv S B off V (mark (M.arrive s v t j ins) v t j) := by
  have hlat := M.later_deliver s v t j ins
  have hdone : ∀ v' t' x, (mark (M.arrive s v t j ins) v t j).done v' t' x = true ↔
      (v' = v ∧ t' = t ∧ x = j) ∨ s.done v' t' x = true := by
    intro v' t' x
    rw [mark_done, arrive_done]
  obtain ⟨-, hj, hnd, hcap, -⟩ := hd
  rw [partsAt_eq _ hp] at hj
  rw [readsAt_eq _ hp] at hcap
  obtain ⟨hv, x, rfl, hat⟩ := E.at_node hp hle
  cases hat with
  | data i c hc =>
    obtain ⟨y, hy⟩ := Option.isSome_iff_exists.mp (hcap hj)
    refine h.deliver_data hv hc hy hlat (by simp) (by simp) ?_ ?_ hdone
    · simp only [mark_cell, arrive, hy]
    · simp only [mark_mem, arrive, hy]
  | flag i c hc =>
    obtain rfl : j = 0 := by simp only [Instr.parts] at hj; omega
    exact h.deliver_flag hh hv hc hnd hlat (by simp) (by simp) rfl rfl hdone
  | ack hr hcomp =>
    obtain rfl : j = 0 := by simp only [Instr.parts] at hj; omega
    exact h.deliver_ack hh hv hr hcomp hnd hlat (by simp) (by simp) rfl rfl hdone
  | clear hclears =>
    obtain rfl : j = 0 := by simp only [Instr.parts] at hj; omega
    exact h.deliver_clear hclears hlat (by simp) (by simp) rfl rfl hdone
  | _ => exact absurd hj (by simp [Instr.parts])

/-! ## Steps -/

theorem BInv.exec (h : BInv S B off V s) (hh : M.Hist s) (hcalm : Calm M S off s) {v : ℕ} {ins : Instr}
    (hp : M.prog v (s.pc v) = some ins) (he : M.Enabled s v ins)
    (hready : s.pc S.T.root = off S.T.root → ∀ j < B.len, s.mem S.T.root (.sym (B.source + j)) = V j) :
    BInv S B off V (advance (M.effect s v ins) v) := by
  rcases Nat.lt_or_ge (s.pc v) (off v) with hlt | hge
  · exact h.exec_before E hh hcalm hp he hlt
  · exact h.exec_node E hh hp he hge hready

theorem BInv.deliver (h : BInv S B off V s) (hh : M.Hist s) (hcalm : Calm M S off s) {v t j : ℕ} {ins : Instr}
    (hp : M.prog v t = some ins) (hd : M.Deliverable s v t j) :
    BInv S B off V (mark (M.arrive s v t j ins) v t j) := by
  rcases Nat.lt_or_ge t (off v) with hlt | hge
  · exact h.deliver_before E hh hcalm hp hd hlt
  · exact h.deliver_node E hh hp hd hge

/-- a node has the data it passes on -/
theorem BInv.has_data (h : BInv S B off V s) (hh : M.Hist s) {v : ℕ} (hv : v ∈ S.T.nodes) (hpc : off v < s.pc v) {j : ℕ}
    (hj : j < B.len) : s.mem v (.sym (S.sendBuf B v + j)) = V j := by
  unfold Shape.sendBuf
  split_ifs with hr
  · subst hr
    exact h.root hpc j hj
  · exact h.got v hv hr j hj (h.received E hh hv hr hpc hj)

theorem BInv.capture (h : BInv S B off V s) (hh : M.Hist s) {v t j : ℕ} {ins : Instr} {y : α}
    (hp : M.prog v t = some ins) (hpc : t < s.pc v) (hj : j < ins.reads) (hsrc : source s v j ins = some y) :
    BInv S B off V (record s v t j y) := by
  refine ⟨h.arrived, h.gathered, h.cleared, h.word, ?_, h.got, h.root⟩
  intro w hw i hi k z hz
  rcases (record_cap ..).mp hz with ⟨rfl, rfl, rfl, rfl⟩ | ⟨-, hz⟩
  · have hc : (S.T.children w)[i]? = some ((S.T.children w).get ⟨i, hi⟩) := List.getElem?_eq_getElem hi
    rw [E.prog_of hw (.data i _ hc), Option.some.injEq] at hp
    subst hp
    simp only [source, Loc.elem, Option.some.injEq] at hsrc
    rw [← hsrc]
    exact h.has_data E hh hw (by omega) hj
  · exact h.cap w hw i hi k z hz

end

/-! ## The two broadcasts are the protocol -/

theorem ActiveSet.nodup_members (A : ActiveSet) : A.members.Nodup :=
  List.nodup_range.map fun _ _ h => A.pe_inj.mp h

/-- the star around a root -/
def starAt (A : ActiveSet) {PE_root : ℕ} (hroot : PE_root < A.PE_size) : ParentTree where
  nodes := A.members.toFinset
  root := A.pe PE_root
  parent _ := A.pe PE_root
  children v := if A.pe PE_root = v then A.members.filter (· ≠ v) else []
  depth v := if v = A.pe PE_root then 0 else 1
  root_mem := by simpa using A.pe_mem hroot
  parent_root := rfl
  parent_mem _ _ := by simpa using A.pe_mem hroot
  mem_children v hv c := by
    by_cases h : A.pe PE_root = v
    · subst h
      simp
    · simp [h]
  nodup v _ := by
    split_ifs
    · exact A.nodup_members.filter _
    · exact List.nodup_nil
  depth_parent v _ hne := by simp [hne]

theorem length_peers (A : ActiveSet) {PE_root : ℕ} (hroot : PE_root < A.PE_size) :
    (A.members.filter (· ≠ A.pe PE_root)).length = A.PE_size - 1 := by
  have hmem : A.pe PE_root ∈ A.members := A.pe_mem hroot
  have hlen : A.members.length = A.PE_size := by simp [ActiveSet.members]
  have herase : A.members.filter (· ≠ A.pe PE_root) = A.members.erase (A.pe PE_root) := by
    rw [A.nodup_members.erase_eq_filter]
    refine List.filter_congr fun x _ => ?_
    simp only [ne_eq, decide_not, bne, beq_eq_decide]
  rw [herase, List.length_erase_of_mem hmem, hlen]

section
variable {A : ActiveSet} {B : BcastArgs} {PE_root : ℕ} (hroot : PE_root < A.PE_size) (h2 : 2 ≤ A.PE_size)
include h2

theorem bcastLinear_node (hlen : B.len ≠ 0) (v : ℕ) :
    bcastLinear A B PE_root v = Shape.node ⟨starAt A hroot, true⟩ B v := by
  have hcond : ¬ (A.PE_size = 1 ∨ B.len = 0) := by omega
  by_cases hv : A.pe PE_root = v
  · subst hv
    have hlen := length_peers A hroot
    have hne : A.members.filter (· ≠ A.pe PE_root) ≠ [] := by
      intro hnil
      rw [hnil, List.length_nil] at hlen
      omega
    have hch : (starAt A hroot).children (A.pe PE_root) = A.members.filter (· ≠ A.pe PE_root) := if_pos rfl
    have hr : (starAt A hroot).root = A.pe PE_root := rfl
    simp only [bcastLinear, if_neg hcond, if_true, Shape.node, Shape.front, Shape.middle, Shape.gather, Shape.back,
      Shape.lateAck, Shape.sendBuf, Shape.Clears, hch, hr]
    generalize A.members.filter (· ≠ A.pe PE_root) = peers at hlen hne
    by_cases hc : B.complete = true <;> simp [hc, hne, hlen]
  · have hch : (starAt A hroot).children v = [] := if_neg hv
    have hr : (starAt A hroot).root = A.pe PE_root := rfl
    have hne : ¬ v = A.pe PE_root := fun h => hv h.symm
    simp only [bcastLinear, if_neg hcond, if_neg hv, Shape.node, Shape.front, Shape.middle, Shape.gather, Shape.back,
      Shape.lateAck, Shape.Clears, hch, hr]
    by_cases hc : B.complete = true <;> simp [hc, hne, starAt]

omit h2 in
theorem bcastTree_node {radix : ℕ} {T : ParentTree} {v : ℕ}
    (hT : treeFamily radix A PE_root v = (T.parent v, T.children v)) (hedge : T.children T.root ≠ [])
    (hcond : ¬ (A.PE_size = 1 ∨ B.len = 0)) (hv : v ∈ T.nodes) :
    bcastTree radix A B PE_root v = Shape.node ⟨T, false⟩ B v := by
  have hpar := T.parent_eq_self hv
  simp only [bcastTree, if_neg hcond, hT, Shape.node, Shape.front, Shape.middle, Shape.gather, Shape.back,
    Shape.lateAck, Shape.sendBuf, Shape.Clears]
  by_cases hr : v = T.root
  · have hp : T.parent v = v := hpar.mpr hr
    have hne : T.children v ≠ [] := hr ▸ hedge
    by_cases hc : B.complete = true <;> simp [hc, hr, hedge, T.parent_root]
  · have hp : ¬ T.parent v = v := fun h => hr (hpar.mp h)
    by_cases hne : T.children v = []
    · by_cases hc : B.complete = true <;> simp [hc, hr, hne]
    · by_cases hc : B.complete = true <;> simp [hc, hr, hp, hne]

include hroot in
/-- either broadcast is the protocol on a tree -/
theorem exists_shape {alg : BcastAlg} (halg : alg.Valid A B.len PE_root) (hlen : B.len ≠ 0) :
    ∃ S : Shape, S.T.root = A.pe PE_root ∧ (∀ v, v ∈ A.members ↔ v ∈ S.T.nodes) ∧ S.T.children S.T.root ≠ [] ∧
      ∀ v ∈ A.members, bcastBody A B PE_root alg v = S.node B v ∧ bcastChildren A PE_root alg v = S.T.children v := by
  cases alg with
  | linear =>
    refine ⟨⟨starAt A hroot, true⟩, rfl, fun v => by simp [starAt], ?_, fun v _ => ?_⟩
    · have hlen := length_peers A hroot
      intro hnil
      have hch : (starAt A hroot).children (A.pe PE_root) = A.members.filter (· ≠ A.pe PE_root) := if_pos rfl
      rw [← hch, show (starAt A hroot).children (A.pe PE_root) = [] from hnil, List.length_nil] at hlen
      omega
    · exact ⟨bcastLinear_node hroot h2 hlen v, if_neg (by omega)⟩
  | tree radix =>
    obtain ⟨T, hr, hnodes, hfam⟩ := exists_tree (halg h2 hlen) h2 hroot
    have hedge : T.children T.root ≠ [] := by
      -- one of the first two members is not the root
      obtain ⟨q, hq, hne⟩ : ∃ q < A.PE_size, A.pe q ≠ T.root := by
        by_cases h0 : PE_root = 0
        · refine ⟨1, by omega, fun h => ?_⟩
          have := A.pe_inj.mp (h.trans hr)
          omega
        · refine ⟨0, by omega, fun h => ?_⟩
          have := A.pe_inj.mp (h.trans hr)
          omega
      exact T.children_root_ne_nil ((hnodes _).mp (A.pe_mem hq)) hne
    refine ⟨⟨T, false⟩, hr, hnodes, hedge, fun v hv => ⟨?_, ?_⟩⟩
    · exact bcastTree_node (hfam v hv) hedge (by omega) ((hnodes v).mp hv)
    · rw [bcastChildren, if_neg (by omega)]
      simp only [hfam v hv]

end

/-! ## What a member that has returned can rely on -/

section
variable {α : Type*} {M : Machine α} {S : Shape} {B : BcastArgs} {off : ℕ → ℕ} {V : ℕ → α} {s : St α}

theorem Shape.length_node (v : ℕ) :
    (S.node B v).length = S.clearPos B v + (S.back B v).length + (S.lateAck B v).length := by
  simp only [node, List.length_append, clearPos, gatherPos, startPos]
  omega

/-- its word is zero -/
theorem BInv.word_returned (h : BInv S B off V s) {v : ℕ} (hv : v ∈ S.T.nodes)
    (hpc : s.pc v = off v + (S.node B v).length) : s.cell v B.word = 0 := by
  rw [Shape.length_node] at hpc
  by_cases hcond : v ≠ S.T.root ∨ B.complete = true
  · have hclears : S.Clears B v := by
      rintro ⟨-, hr, hc⟩
      rcases hcond with hne | hc'
      · exact hne hr
      · rw [hc] at hc'
        exact absurd hc' (by decide)
    have hback : (S.back B v).length = 2 := by simp [Shape.back, hclears]
    rw [h.word v hv, if_pos ⟨h.cleared v hv hcond (by omega), hclears⟩]
  · -- nobody writes the word of the root of a broadcast that is not complete
    push Not at hcond
    have hack : acked S B off s v = ∅ := Finset.filter_false_of_mem fun c _ hc => hcond.2 hc.1
    have hword : bword S B off s v = 0 := by
      rw [bword, if_neg (fun hc => hc.1 hcond.1), hack]
      rfl
    rw [h.word v hv, hword, ite_self]

variable (E : Embed M S B off)
include E

/-- it has the data -/
theorem BInv.got_returned (h : BInv S B off V s) (hh : M.Hist s) {v : ℕ} (hv : v ∈ S.T.nodes) (hr : v ≠ S.T.root)
    (hpc : off v < s.pc v) {j : ℕ} (hj : j < B.len) : s.mem v (.sym (B.target + j)) = V j :=
  h.got v hv hr j hj (h.received E hh hv hr hpc hj)

/-- so have its children when the broadcast is complete -/
theorem BInv.children_returned (h : BInv S B off V s) (hh : M.Hist s) (hc : B.complete = true) {v c : ℕ}
    (hv : v ∈ S.T.nodes) (hcm : c ∈ S.T.children v) (hpc : s.pc v = off v + (S.node B v).length) {j : ℕ}
    (hj : j < B.len) : s.mem c (.sym (B.target + j)) = V j := by
  have hne : S.T.children v ≠ [] := List.ne_nil_of_mem hcm
  have hlt := Shape.gatherPos_lt hne hc
  have hcr := S.T.child_ne_root hv hcm
  have hpos := Shape.ackPos_pos (B := B) hcr
  rw [Shape.length_node] at hpc
  have hack := (hh.doneIssued _ _ _ (h.gathered hc v hv (by omega) c hcm)).1
  exact h.got_returned E hh (S.T.child_mem hv hcm) hcr (by omega) hj

/-- a PE that passes the data on has them -/
theorem BInv.forwarded (h : BInv S B off V s) (hh : M.Hist s) {v t dst len pe : ℕ} {src : Loc}
    (hp : M.prog v t = some (.putNb dst src len pe)) (ht : off v ≤ t) (hpc : t < s.pc v) {j : ℕ} (hj : j < B.len) :
    s.mem v (.sym (S.sendBuf B v + j)) = V j :=
  h.has_data E hh (E.at_node hp ht).1 (by omega) hj

end

/-! ## The broadcasts on their own -/

/-- the members of A call the broadcast once -/
def bcastMachine {α : Type*} (A : ActiveSet) (B : BcastArgs) (PE_root : ℕ) (alg : BcastAlg) (op : α → α → α) :
    Machine α :=
  once A.members op (bcastBody A B PE_root alg)

/-- the same behind instructions that do not touch memory -/
def bcastAfter {α : Type*} (pre : List Instr) (A : ActiveSet) (B : BcastArgs) (PE_root : ℕ) (alg : BcastAlg)
    (op : α → α → α) : Machine α :=
  once A.members op fun v => pre ++ bcastBody A B PE_root alg v

section
variable {α : Type*} {pre : List Instr} {A : ActiveSet} {B : BcastArgs} {PE_root : ℕ} {alg : BcastAlg}
  {op : α → α → α} {S : Shape} (hpre : ∀ ins ∈ pre, ins.silent = true)
  (hnodes : ∀ v, v ∈ A.members ↔ v ∈ S.T.nodes) (hedge : S.T.children S.T.root ≠ [])
  (hbody : ∀ v ∈ A.members, bcastBody A B PE_root alg v = S.node B v)
include hpre

/-- what is before the broadcast -/
theorem bcastAfter_silent {v t : ℕ} {ins : Instr} (hp : (bcastAfter pre A B PE_root alg op).prog v t = some ins)
    (ht : t < pre.length) : ins.silent = true := by
  simp only [bcastAfter, once] at hp
  split_ifs at hp
  rw [List.getElem?_append_left ht] at hp
  exact hpre ins (List.mem_of_getElem? hp)

include hnodes hedge hbody

theorem bcast_embed : Embed (bcastAfter pre A B PE_root alg op) S B fun _ => pre.length := by
  refine ⟨hedge, ?_, ?_, ?_⟩
  · intro v t ins hp
    simp only [bcastAfter, once] at hp
    split_ifs at hp with hv
    exact (hnodes v).mp hv
  · intro v hv x
    have hm := (hnodes v).mpr hv
    simp only [bcastAfter, once, if_pos hm, hbody v hm]
    rw [List.getElem?_append_right (by omega), Nat.add_sub_cancel_left]
  · intro v t ins hp ht
    have hs := bcastAfter_silent hpre hp ht
    cases ins <;> simp_all [Instr.silent, Instr.word]

omit hnodes hedge hbody in
theorem bcast_calm (s : St α) : Calm (bcastAfter pre A B PE_root alg op) S (fun _ => pre.length) s := by
  refine fun _ v _ => ⟨fun t ins _ ht hp => bcastAfter_silent hpre hp ht, fun t ht j hj => ?_⟩
  -- silent instructions send nothing
  cases hp : (bcastAfter pre A B PE_root alg op).prog v t with
  | none => simp [partsAt, hp] at hj
  | some ins =>
    have hs := bcastAfter_silent hpre hp ht
    rw [partsAt_eq _ hp] at hj
    cases ins <;> simp_all [Instr.silent, Instr.parts]

/-- the protocol, with the root's memory as it was -/
theorem bcast_keeps (m0 : ℕ → Loc → α) : (bcastAfter pre A B PE_root alg op).Keeps fun s =>
    BInv S B (fun _ => pre.length) (fun j => m0 S.T.root (.sym (B.source + j))) s ∧
      ∀ l, s.mem S.T.root l = m0 S.T.root l := by
  have E : Embed (bcastAfter pre A B PE_root alg op) S B _ := bcast_embed hpre hnodes hedge hbody
  have hcalm : ∀ s, Calm (bcastAfter pre A B PE_root alg op) S (fun _ => pre.length) s := bcast_calm hpre
  refine ⟨?_, ?_, ?_⟩
  · rintro s r ins hh ⟨hb, hm⟩ hp he
    refine ⟨hb.exec E hh (hcalm s) hp he fun _ j _ => hm _, fun l => ?_⟩
    rw [advance_mem, ← hm l]
    rcases Nat.lt_or_ge (s.pc r) pre.length with hlt | hge
    · rw [effect_silent _ _ _ (bcastAfter_silent hpre hp hlt)]
    · obtain ⟨-, x, -, hat⟩ := E.at_node hp hge
      cases hat <;> rfl
  · rintro s r i j ins v hh ⟨hb, hm⟩ hp hpc hj _ hsrc
    exact ⟨hb.capture E hh hp hpc hj hsrc, hm⟩
  · rintro s r i j ins hh ⟨hb, hm⟩ hp hd
    refine ⟨hb.deliver E hh (hcalm s) hp hd, fun l => ?_⟩
    have hge : pre.length ≤ i := by
      by_contra hlt
      have hs := bcastAfter_silent hpre hp (by omega)
      have hj := hd.2.1
      rw [partsAt_eq _ hp] at hj
      cases ins <;> simp_all [Instr.silent, Instr.parts]
    obtain ⟨hr, x, -, hat⟩ := E.at_node hp hge
    rw [mark_mem, ← hm l]
    cases hat with
    | data i c hc =>
      -- data go to a child, and the root is nobody's child
      have hne : S.T.root ≠ c := fun heq => (child_eq hr hc).2.1 heq.symm
      simp only [arrive]
      split
      · exact (setLoc_apply ..).trans (if_neg fun hsame => hne hsame.1)
      · rfl
    | _ => rfl

/-- the protocol in every state of a run -/
theorem bcast_run (c0 : ℕ → ℕ → ℤ) (m0 : ℕ → Loc → α) (h0 : ∀ v ∈ A.members, c0 v B.word = 0) (ops : List Op) :
    let s := (bcastAfter pre A B PE_root alg op).run (init c0 m0) ops
    (bcastAfter pre A B PE_root alg op).Hist s ∧
      BInv S B (fun _ => pre.length) (fun j => m0 S.T.root (.sym (B.source + j))) s ∧
      ∀ l, s.mem S.T.root l = m0 S.T.root l := by
  have hzero : ∀ v ∈ S.T.nodes, (init c0 m0).cell v B.word = 0 := fun v hv => h0 v ((hnodes v).mpr hv)
  have hidle : BInv S B (fun _ => pre.length) (fun j => m0 S.T.root (.sym (B.source + j))) (init c0 m0) :=
    BInv.idle (hist_init (bcastAfter pre A B PE_root alg op) c0 m0) (fun v _ => Nat.zero_le _) hzero
  exact (bcast_keeps hpre hnodes hedge hbody m0).run (hist_init _ c0 m0) ⟨hidle, fun l => rfl⟩ ops

end

/-- the j-th byte of the data that a broadcast is to deliver -/
def bcastData {α : Type*} (A : ActiveSet) (B : BcastArgs) (PE_root : ℕ) (m0 : ℕ → Loc → α) (j : ℕ) : α :=
  m0 (A.pe PE_root) (.sym (B.source + j))

/-- what is true of a broadcast in a state s that it has reached from the memory m0 -/
structure BcastOk {α : Type*} (A : ActiveSet) (B : BcastArgs) (PE_root : ℕ) (alg : BcastAlg) (op : α → α → α)
    (m0 : ℕ → Loc → α) (s : St α) : Prop where
  /-- a member other than the root that has returned has the data -/
  received : ∀ v ∈ A.members, v ≠ A.pe PE_root → s.pc v = (bcastBody A B PE_root alg v).length →
    ∀ j < B.len, s.mem v (.sym (B.target + j)) = bcastData A B PE_root m0 j
  /-- a member that has begun to pass its target on has the data in it -/
  forwarded : ∀ v ∈ A.members, v ≠ A.pe PE_root → ∀ t < s.pc v, ∀ dst src len pe,
    (bcastMachine A B PE_root alg op).prog v t = some (.putNb dst src len pe) →
    ∀ j < B.len, s.mem v (.sym (B.target + j)) = bcastData A B PE_root m0 j
  /-- the children of a member that has returned from a complete broadcast have the data -/
  complete : B.complete = true → ∀ v ∈ A.members, s.pc v = (bcastBody A B PE_root alg v).length →
    ∀ c ∈ bcastChildren A PE_root alg v, ∀ j < B.len, s.mem c (.sym (B.target + j)) = bcastData A B PE_root m0 j
  /-- the pSync of a member that has returned is zero -/
  zero : ∀ v ∈ A.members, s.pc v = (bcastBody A B PE_root alg v).length → s.cell v B.word = 0
  /-- the root keeps its memory -/
  root : ∀ l, s.mem (A.pe PE_root) l = m0 (A.pe PE_root) l

theorem bcastBody_nil {A : ActiveSet} {B : BcastArgs} (h : A.PE_size = 1 ∨ B.len = 0) (PE_root : ℕ) (alg : BcastAlg)
    (v : ℕ) : bcastBody A B PE_root alg v = [] := by
  cases alg with
  | linear => exact if_pos h
  | tree radix => exact if_pos h

/-- every state of a broadcast -/
theorem bcast_ok {α : Type*} (A : ActiveSet) (B : BcastArgs) {PE_root : ℕ} (hroot : PE_root < A.PE_size)
    (alg : BcastAlg) (halg : alg.Valid A B.len PE_root) (op : α → α → α) (c0 : ℕ → ℕ → ℤ)
    (m0 : ℕ → Loc → α) (h0 : ∀ v ∈ A.members, c0 v B.word = 0) (ops : List Op) :
    BcastOk A B PE_root alg op m0 ((bcastMachine A B PE_root alg op).run (init c0 m0) ops) := by
  by_cases hcond : A.PE_size = 1 ∨ B.len = 0
  · -- nothing is sent
    have hnil := bcastBody_nil hcond PE_root alg
    have hp : ∀ v t, (bcastMachine A B PE_root alg op).prog v t = none := by
      intro v t
      simp [bcastMachine, once, hnil]
    rw [run_of_prog_none hp]
    refine ⟨?_, ?_, ?_, fun v hv _ => h0 v hv, fun l => rfl⟩
    · intro v hv hne _ j hj
      rcases hcond with h1 | hlen
      · obtain ⟨q, hq, rfl⟩ := A.mem_members.mp hv
        exact absurd (congrArg A.pe (show q = PE_root by omega)) hne
      · omega
    · intro v _ _ t _ dst src len pe hput
      rw [hp] at hput
      exact absurd hput (by simp)
    · intro _ v _ _ c hc j hj
      rcases hcond with h1 | hlen
      · simp [bcastChildren, h1] at hc
      · omega
  · push Not at hcond
    have h2 : 2 ≤ A.PE_size := by
      have := A.size_pos
      omega
    obtain ⟨S, hr, hnodes, hedge, hbody⟩ := exists_shape hroot h2 halg hcond.2
    have hpre : ∀ ins ∈ ([] : List Instr), ins.silent = true := fun ins h => absurd h (by simp)
    have E : Embed (bcastAfter [] A B PE_root alg op) S B _ :=
      bcast_embed hpre hnodes hedge fun v hv => (hbody v hv).1
    obtain ⟨hh, hb, hm⟩ : (bcastAfter [] A B PE_root alg op).Hist _ ∧ _ ∧ _ :=
      bcast_run hpre hnodes hedge (fun v hv => (hbody v hv).1) c0 m0 h0 ops
    rw [hr] at hb hm
    have hlen : ∀ v ∈ A.members, ∀ {s : St α}, s.pc v = (bcastBody A B PE_root alg v).length →
        s.pc v = 0 + (S.node B v).length := by
      intro v hv s hpc
      rw [hpc, (hbody v hv).1, Nat.zero_add]
    refine ⟨?_, ?_, ?_, ?_, hm⟩
    · intro v hv hne hpc j hj
      have hpos := Shape.startPos_pos (B := B) (S := S) (hr ▸ hne)
      have hle := Shape.startPos_le (S := S) (B := B) v
      have hpc := hlen v hv hpc
      rw [Shape.length_node] at hpc
      refine hb.got_returned E hh ((hnodes v).mp hv) (hr ▸ hne) (lt_of_lt_of_eq ?_ hpc.symm) hj
      rw [List.length_nil]
      omega
    · intro v hv hne t ht dst src len pe hp j hj
      have := hb.forwarded E hh hp (Nat.zero_le _) ht hj
      rwa [Shape.sendBuf, if_neg (hr ▸ hne)] at this
    · intro hc v hv hpc c hcm j hj
      rw [(hbody v hv).2] at hcm
      exact hb.children_returned E hh hc ((hnodes v).mp hv) hcm (hlen v hv hpc) hj
    · intro v hv hpc
      exact hb.word_returned ((hnodes v).mp hv) (hlen v hv hpc)

/-- **Both broadcasts are correct.** For every active set, root, length and value of complete, every tree radix with
indices below 2^31, and under every schedule: a member other than the root that has returned has the root's data; nobody
passes its target on before it has the data; with complete = 1 the children of who has returned have the data; the pSync
of who has returned is zero; and a linear and a tree broadcast of the same data leave the same targets. -/
theorem bcast_correct {α : Type*} (A : ActiveSet) (B : BcastArgs) {PE_root : ℕ} (hroot : PE_root < A.PE_size)
    (alg : BcastAlg) (halg : alg.Valid A B.len PE_root) (op : α → α → α) (c0 : ℕ → ℕ → ℤ)
    (m0 : ℕ → Loc → α) (h0 : ∀ v ∈ A.members, c0 v B.word = 0) (ops : List Op) :
    let s := (bcastMachine A B PE_root alg op).run (init c0 m0) ops
    BcastOk A B PE_root alg op m0 s ∧
    ∀ alg' : BcastAlg, alg'.Valid A B.len PE_root → ∀ ops' : List Op,
      let s' := (bcastMachine A B PE_root alg' op).run (init c0 m0) ops'
      ∀ v ∈ A.members, s.pc v = (bcastBody A B PE_root alg v).length →
        s'.pc v = (bcastBody A B PE_root alg' v).length →
        ∀ j < B.len, s.mem v (.sym (B.target + j)) = s'.mem v (.sym (B.target + j)) := by
  intro s
  have hs := bcast_ok A B hroot alg halg op c0 m0 h0 ops
  refine ⟨hs, fun alg' halg' ops' => ?_⟩
  have hs' := bcast_ok A B hroot alg' halg' op c0 m0 h0 ops'
  intro s' v hv hpc hpc' j hj
  by_cases hr : v = A.pe PE_root
  · subst hr
    calc s.mem (A.pe PE_root) (.sym (B.target + j))
        = m0 (A.pe PE_root) (.sym (B.target + j)) := hs.root _
      _ = s'.mem (A.pe PE_root) (.sym (B.target + j)) := (hs'.root _).symm
  · calc s.mem v (.sym (B.target + j))
        = bcastData A B PE_root m0 j := hs.received v hv hr hpc j hj
      _ = s'.mem v (.sym (B.target + j)) := (hs'.received v hv hr hpc' j hj).symm

/-- PEs 0, 2 and 4 of six; PE 4 broadcasts two bytes from address 2 to address 0, complete -/
def evenPes : ActiveSet := ⟨0, 2, 3, 6, Nat.two_pos, ActiveSet.three_pos, by decide⟩

def evenArgs : BcastArgs := ⟨0, 0, 2, 2, true⟩

/-- the byte at address a of PE p is 10 p + a -/
def evenMem (p : ℕ) : Loc → ℤ
  | .sym a => 10 * p + a
  | .priv _ => 0

/-- the root sends, PE 0 receives and returns -/
def evenSched : List Op :=
  [.exec 4, .exec 4, .capture 4 0 1, .capture 4 0 0, .capture 4 1 0, .capture 4 1 1, .exec 4, .exec 4, .exec 4, .exec 4,
    .deliver 4 0 1, .deliver 4 0 0, .deliver 4 4 0, .exec 0, .exec 0, .exec 0, .deliver 0 2 0, .exec 0]

theorem evenPes_fits : TreeFits 2 evenPes 2 := ⟨by decide, by decide, fun h => absurd h.2 (by decide), fun _ => by decide⟩

set_option maxRecDepth 2000 in
theorem bcast_correct_even :
    ((bcastMachine evenPes evenArgs 2 (.tree 2) (· + ·)).run (init (fun _ _ => 0) evenMem) evenSched).pc 0 =
      (bcastBody evenPes evenArgs 2 (.tree 2) 0).length ∧
    ((bcastMachine evenPes evenArgs 2 (.tree 2) (· + ·)).run (init (fun _ _ => 0) evenMem) evenSched).mem 0 (.sym 1) =
      43 := by
  have hpc : ((bcastMachine evenPes evenArgs 2 (.tree 2) (· + ·)).run (init (fun _ _ => 0) evenMem) evenSched).pc 0 =
      (bcastBody evenPes evenArgs 2 (.tree 2) 0).length := by decide +kernel
  have h := (bcast_correct evenPes evenArgs (show 2 < 3 by decide) (.tree 2)
    (fun _ _ => evenPes_fits) (· + ·) (fun _ _ => 0) evenMem (fun _ _ => rfl) evenSched).1.received 0
    (by decide) (by decide) hpc 1 (by decide)
  exact ⟨hpc, h.trans (by decide)⟩

end SandiaShmem.Collectives
