/-
How a chunk is put into its bin and taken out of it (`src/malloc.c`), by its links in memory: the macros that insert and
unlink chunks, with all that they check. A check that fails ends the program (`CORRUPTION_ERROR_ACTION`).

A small bin is a ring of chunks and its header. A tree bin has a pointer to its root; a chunk in the tree has its children,
its parent and its index, and is in a ring with the other chunks of its size, whose parent is 0.

- `insert_small_chunk`, `unlink_small_chunk`, `unlink_first_small_chunk`.
- `insert_large_chunk`, `unlink_large_chunk`: with the loops down the tree.
- `insert_chunk`, `unlink_chunk`: one or the other by the size.
-/
import SandiaShmem.Heap.State

namespace SandiaShmem.Heap

open BitScan LinkedTrie

/-! ## Small bins -/

/-- `B->fd = P; F->bk = P; P->fd = F; P->bk = B` -/
def linkBetween (s : MState) (B F P : ℕ) : MState :=
  let mem := set_link (set_link s.mem .fd B P) .bk F P
  { s with mem := set_link (set_link mem .fd P F) .bk P B }

/-- `F->bk = B; B->fd = F` -/
def linkPast (s : MState) (B F : ℕ) : MState := { s with mem := set_link (set_link s.mem .bk F B) .fd B F }

def insert_small_chunk (Y : Sys) (s : MState) (P S : ℕ) : Except Stop MState :=
  let I := small_index S
  let B := smallbin_at Y I
  if s.smallmap.getLsbD I = false then .ok (linkBetween { s with smallmap := setBit s.smallmap I } B B P)
  else if ok_address s (link s.mem .fd B) then .ok (linkBetween s B (link s.mem .fd B) P)
  else .error .corruption

def unlink_small_chunk (Y : Sys) (s : MState) (P S : ℕ) : Except Stop MState :=
  let F := link s.mem .fd P
  let B := link s.mem .bk P
  let I := small_index S
  if F = smallbin_at Y I ∨ (ok_address s F ∧ link s.mem .bk F = P) then
    if B = F then .ok { s with smallmap := clearBit s.smallmap I }
    else if B = smallbin_at Y I ∨ (ok_address s B ∧ link s.mem .fd B = P) then .ok (linkPast s B F)
    else .error .corruption
  else .error .corruption

def unlink_first_small_chunk (s : MState) (B P I : ℕ) : Except Stop MState :=
  let F := link s.mem .fd P
  if B = F then .ok { s with smallmap := clearBit s.smallmap I }
  else if ok_address s F ∧ link s.mem .bk F = P then .ok (linkPast s B F)
  else .error .corruption

/-! ## Tree bins -/

/-- `X->fd = X->bk = X` -/
def linkSelf (mem : Mem) (X : ℕ) : Mem := set_link (set_link mem .bk X X) .fd X X

/-- the loop of `insert_large_chunk` -/
def insertLoop (s : MState) (X S : ℕ) : ℕ → ℕ → BitVec 64 → Except Stop MState
  | 0, _, _ => .error .running
  | fuel + 1, T, K =>
    if chunksize s.mem T ≠ S then
      let C := Field.child K.msb
      if link s.mem C T ≠ 0 then insertLoop s X S fuel (link s.mem C T) (K <<< 1)
      else if ok_address s (T + offset C) then
        .ok { s with mem := linkSelf (set_link (set_link s.mem C T X) .parent X T) X }
      else .error .corruption
    else
      let F := link s.mem .fd T
      if ok_address s T ∧ ok_address s F then
        let mem := set_link (set_link s.mem .bk F X) .fd T X
        .ok { s with mem := set_link (set_link (set_link mem .fd X F) .bk X T) .parent X 0 }
      else .error .corruption

def insert_large_chunk (Y : Sys) (s : MState) (X S : ℕ) : Except Stop MState :=
  let I := treeIndex S
  let H := treebin_at Y I
  let mem := set_link (set_link (set_index s.mem X I) (.child true) X 0) (.child false) X 0
  if s.treemap.getLsbD I = false then
    .ok { s with treemap := setBit s.treemap I, mem := linkSelf (set_link (put mem H X) .parent X H) X }
  else insertLoop { s with mem } X S s.footprint (mem H) (BitVec.ofNat 64 (S <<< leftshift I))

/-- the loop of `unlink_large_chunk`: R, and RP as a node and one of its children -/
def leafLoop (mem : Mem) : ℕ → ℕ → ℕ × Bool → Except Stop (ℕ × (ℕ × Bool))
  | 0, _, _ => .error .running
  | fuel + 1, R, RP =>
    if link mem (.child true) R ≠ 0 then leafLoop mem fuel (link mem (.child true) R) (R, true)
    else if link mem (.child false) R ≠ 0 then leafLoop mem fuel (link mem (.child false) R) (R, false)
    else .ok (R, RP)

/-- what is to replace X: R, which has been taken out of the ring, or out of the tree as a leaf, or is 0 -/
def takeReplacement (s : MState) (X : ℕ) : Except Stop (ℕ × MState) :=
  if link s.mem .bk X ≠ X then
    let F := link s.mem .fd X
    let R := link s.mem .bk X
    if ok_address s F ∧ link s.mem .bk F = X ∧ link s.mem .fd R = X then .ok (R, linkPast s R F)
    else .error .corruption
  else
    let b : Bool := link s.mem (.child true) X ≠ 0
    if link s.mem (.child b) X ≠ 0 then do
      let (R, RP) ← leafLoop s.mem s.footprint (link s.mem (.child b) X) (X, b)
      if ok_address s (RP.1 + offset (.child RP.2)) then .ok (R, { s with mem := set_link s.mem (.child RP.2) RP.1 0 })
      else .error .corruption
    else .ok (0, s)

/-- the link to X becomes one to R -/
def replaceLink (Y : Sys) (s : MState) (X XP R : ℕ) : Except Stop MState :=
  let I := index s.mem X
  let H := treebin_at Y I
  if X = s.mem H then
    .ok { s with mem := put s.mem H R, treemap := if R = 0 then clearBit s.treemap I else s.treemap }
  else if ok_address s XP then
    let b : Bool := link s.mem (.child false) XP ≠ X
    .ok { s with mem := set_link s.mem (.child b) XP R }
  else .error .corruption

/-- a child of X becomes one of R -/
def adoptChild (s : MState) (X R : ℕ) (b : Bool) : Except Stop MState :=
  let C := link s.mem (.child b) X
  if C ≠ 0 then
    if ok_address s C then .ok { s with mem := set_link (set_link s.mem (.child b) R C) .parent C R }
    else .error .corruption
  else .ok s

def unlink_large_chunk (Y : Sys) (s : MState) (X : ℕ) : Except Stop MState := do
  let XP := link s.mem .parent X
  let (R, s) ← takeReplacement s X
  if XP ≠ 0 then do
    let s ← replaceLink Y s X XP R
    if R ≠ 0 then
      if ok_address s R then do
        let s ← adoptChild { s with mem := set_link s.mem .parent R XP } X R false
        adoptChild s X R true
      else .error .corruption
    else .ok s
  else .ok s

/-! ## Both -/

def insert_chunk (Y : Sys) (s : MState) (P S : ℕ) : Except Stop MState :=
  if is_small S then insert_small_chunk Y s P S else insert_large_chunk Y s P S

def unlink_chunk (Y : Sys) (s : MState) (P S : ℕ) : Except Stop MState :=
  if is_small S then unlink_small_chunk Y s P S else unlink_large_chunk Y s P

end SandiaShmem.Heap
