/-
The portal table entries of the counters of the Portals transport: `shmem_transport_ct_create`,
`shmem_transport_ct_free` and `shmem_transport_portals4_ct_attach` (`src/transport_portals4.h`), and the table
`shmem_transport_portals4_pt_state` (`src/transport_portals4.c`).

A counter takes one entry if remote virtual addressing is enabled and two if it is not, each time the first one that is
free in the table. The transport itself has entry 8, and without remote virtual addressing also 9 for the heap. The
table keeps entry 9 back in the other case.

- `ctAttach_of_free`, `ctAttach_state`: what one search does.
- `Inv`: the table has what the live counters hold, and the counters of the two-entry mode are below entry 8.
- `Inv.create`, `Inv.free`: the steps keep it.
- `create_takes_heap_pt`: the fourth counter of the two-entry mode takes entry 9.
- `pt_ok_iff`: the sequences of calls in which the indices never clash.
-/
import Mathlib.Tactic
import SandiaShmem.Core.Runs

namespace SandiaShmem.Transport.PtlPt

open Runs

/-! ## Model -/

/-- `shmem_transport_portals4_pt_states_t` -/
inductive PtState where
  | FREE
  | ALLOCATED
  | RESERVED
deriving DecidableEq, Repr

/-- whether ENABLE_REMOTE_VIRTUAL_ADDRESSING is defined (`onePt`) or not (`twoPt`) -/
inductive Mode where
  | onePt
  | twoPt
deriving DecidableEq, Repr

def NUM_PTS : ℕ := 32

/-- the entries of the transport: `shmem_transport_portals4_pt`, or `_data_pt` and `_heap_pt` -/
def ownPts : Mode → List ℕ
  | .onePt => [8]
  | .twoPt => [8, 9]

/-- the initial value of `shmem_transport_portals4_pt_state` -/
def ptStateInit (M : Mode) (i : ℕ) : PtState :=
  if i = 6 ∨ i = 8 ∨ (i = 9 ∧ M = .onePt) ∨ (16 ≤ i ∧ i ≤ 21) then .RESERVED else .FREE

/-- the table, and the entries that Portals has allocated on the network interface -/
structure Tables where
  pt_state : ℕ → PtState
  ni : List ℕ

/-- the entries of a `shmem_transport_ct_t` -/
inductive Ct where
  | onePt (shr_pt : ℕ)
  | twoPt (data_pt heap_pt : ℕ)
deriving DecidableEq, Repr

def Ct.pts : Ct → List ℕ
  | .onePt shr_pt => [shr_pt]
  | .twoPt data_pt heap_pt => [data_pt, heap_pt]

/-- what stops the job -/
inductive PtlError where
  /-- "Out of PT entries allocating CT object" -/
  | outOfPtEntries
  /-- "PtlPTAlloc of data table failed: %d" -/
  | ptAllocFailed
  /-- "data portal table index mis-match: desired = %d, actual = %d" -/
  | misMatch (des_pt seg_pt : ℕ)
deriving DecidableEq, Repr

/-- the search for an index -/
def firstFree (pt_state : ℕ → PtState) : Option ℕ :=
  (List.range NUM_PTS).find? fun des_pt => decide (pt_state des_pt = .FREE)

section
variable (M : Mode) (ptlPTAlloc : List ℕ → ℕ → Option ℕ)

/-- `shmem_transport_portals4_ct_attach`. `ptlPTAlloc ni des_pt` is the entry that `PtlPTAlloc` allocates when asked for
`des_pt`, if it does not fail. -/
def ctAttach (t : Tables) : Tables × Except PtlError ℕ :=
  match firstFree t.pt_state with
  | none => (t, .error .outOfPtEntries)
  | some des_pt =>
    let pt_state := Function.update t.pt_state des_pt .ALLOCATED
    match ptlPTAlloc t.ni des_pt with
    | none => (⟨pt_state, t.ni⟩, .error .ptAllocFailed)
    | some seg_pt =>
      if seg_pt ≠ des_pt then (⟨pt_state, seg_pt :: t.ni⟩, .error (.misMatch des_pt seg_pt))
      else (⟨pt_state, seg_pt :: t.ni⟩, .ok seg_pt)

/-- `shmem_transport_ct_create` -/
def ctCreate (t : Tables) : Tables × Except PtlError Ct :=
  match M with
  | .onePt =>
    match ctAttach ptlPTAlloc t with
    | (t, .error e) => (t, .error e)
    | (t, .ok shr_pt) => (t, .ok (.onePt shr_pt))
  | .twoPt =>
    match ctAttach ptlPTAlloc t with
    | (t, .error e) => (t, .error e)
    | (t, .ok data_pt) =>
      match ctAttach ptlPTAlloc t with
      | (t, .error e) => (t, .error e)
      | (t, .ok heap_pt) => (t, .ok (.twoPt data_pt heap_pt))

end

/-- `shmem_transport_ct_free` -/
def ctFree (t : Tables) (ct : Ct) : Tables where
  pt_state := ct.pts.foldl (fun pt_state i => Function.update pt_state i .FREE) t.pt_state
  ni := t.ni.filter fun i => decide (i ∉ ct.pts)

/-- the entries that go from one state to another -/
def changed (before after : ℕ → PtState) (x y : PtState) : List ℕ :=
  (List.range NUM_PTS).filter fun i => decide (before i = x ∧ after i = y)

/-- a live counter, and the entries that were allocated when it was created -/
structure Live where
  ct : Ct
  taken : List ℕ
deriving DecidableEq, Repr

/-- what a counter took when it was created and what it gave back when it was freed -/
structure Freed where
  taken : List ℕ
  returned : List ℕ
deriving DecidableEq, Repr

/-- the live counters in the order of creation, the record of those that were freed, and how the job was stopped -/
structure St where
  tables : Tables
  live : List Live
  freed : List Freed
  stopped : Option PtlError

def init (M : Mode) : St := ⟨⟨ptStateInit M, ownPts M⟩, [], [], none⟩

/-- a call; `free k` frees the k-th of the live counters -/
inductive Call where
  | create
  | free (k : ℕ)
deriving DecidableEq, Repr

def step (M : Mode) (ptlPTAlloc : List ℕ → ℕ → Option ℕ) (s : St) (c : Call) : St :=
  if s.stopped.isSome then s
  else
    match c with
    | .create =>
      match ctCreate M ptlPTAlloc s.tables with
      | (t, .error e) => { s with tables := t, stopped := some e }
      | (t, .ok ct) =>
        { s with tables := t, live := s.live ++ [⟨ct, changed s.tables.pt_state t.pt_state .FREE .ALLOCATED⟩] }
    | .free k =>
      match s.live[k]? with
      | none => s
      | some l =>
        let t := ctFree s.tables l.ct
        { s with
          tables := t
          live := s.live.eraseIdx k
          freed := s.freed ++ [⟨l.taken, changed s.tables.pt_state t.pt_state .ALLOCATED .FREE⟩] }

/-- the indices held by live counters -/
def heldBy (live : List Live) : List ℕ := live.flatMap fun l => l.ct.pts

/-- the indices never clash -/
structure PtOk (M : Mode) (s : St) : Prop where
  distinct : (heldBy s.live).Nodup
  notOwn : ∀ i ∈ heldBy s.live, i ∉ ownPts M
  notReserved : ∀ i ∈ heldBy s.live, ptStateInit M i ≠ .RESERVED
  allocated : ∀ i < NUM_PTS, s.tables.pt_state i = .ALLOCATED ↔ i ∈ heldBy s.live
  returned : ∀ f ∈ s.freed, f.returned = f.taken

/-- fewer than four counters are live at a time in the two-entry mode -/
def CreateFits (M : Mode) (s : St) : Call → Prop
  | .create => M = .onePt ∨ s.live.length < 3
  | .free _ => True

/-! ## The table -/

/-- the table when the entries of H are held -/
def tableOf (M : Mode) (H : List ℕ) (i : ℕ) : PtState := if i ∈ H then .ALLOCATED else ptStateInit M i

/-- the members of a list below the size of the table, in order -/
def indices (D : List ℕ) : List ℕ := (List.range NUM_PTS).filter fun i => decide (i ∈ D)

variable {M : Mode} {H H' D : List ℕ} {d : ℕ}

theorem tableOf_congr (h : ∀ i, i ∈ H ↔ i ∈ H') : tableOf M H = tableOf M H' := by
  funext i
  simp only [tableOf, h i]

theorem tableOf_cons : tableOf M (d :: H) = Function.update (tableOf M H) d .ALLOCATED := by
  funext i
  unfold tableOf
  by_cases hi : i = d
  · subst hi
    simp
  · simp [hi]

/-- what the search finds -/
theorem firstFree_spec (h : firstFree (tableOf M H) = some d) :
    d < NUM_PTS ∧ d ∉ H ∧ ptStateInit M d = .FREE ∧ ∀ j < d, j ∈ H ∨ ptStateInit M j ≠ .FREE := by
  rw [firstFree, List.find?_range_eq_some] at h
  obtain ⟨hfree, hlt, hbefore⟩ := h
  have hd : tableOf M H d = .FREE := by simpa using hfree
  refine ⟨List.mem_range.mp hlt, ?_, ?_, fun j hj => ?_⟩
  · intro hmem
    rw [tableOf, if_pos hmem] at hd
    exact absurd hd (by decide)
  · by_contra hne
    unfold tableOf at hd
    split_ifs at hd
    exact hne hd
  · have hj' : tableOf M H j ≠ .FREE := by simpa using hbefore j hj
    by_contra hcon
    rw [not_or, not_not] at hcon
    rw [tableOf, if_neg hcon.1] at hj'
    exact hj' hcon.2

/-- the entries before the first one of the transport that are not reserved -/
def lowPts : Finset ℕ := (Finset.range 8).filter fun i => ptStateInit .twoPt i = .FREE

theorem mem_lowPts {i : ℕ} : i ∈ lowPts ↔ i < 8 ∧ ptStateInit .twoPt i = .FREE := by
  rw [lowPts, Finset.mem_filter, Finset.mem_range]

/-- the search stays below entry 8 as long as fewer than seven entries are held -/
theorem firstFree_low (hlen : H.length < 7) : ∃ d, firstFree (tableOf .twoPt H) = some d ∧ d ∈ lowPts := by
  have hcard : H.toFinset.card < lowPts.card := (List.toFinset_card_le H).trans_lt (hlen.trans_eq (by decide))
  obtain ⟨x, hx, hxH⟩ := Finset.exists_mem_notMem_of_card_lt_card hcard
  rw [List.mem_toFinset] at hxH
  obtain ⟨hx8, hxfree⟩ := mem_lowPts.mp hx
  have hfree : tableOf .twoPt H x = .FREE := by rw [tableOf, if_neg hxH, hxfree]
  cases hfirst : firstFree (tableOf .twoPt H) with
  | none =>
    have hall := List.find?_range_eq_none.mp hfirst x (by unfold NUM_PTS; omega)
    simp [hfree] at hall
  | some d =>
    obtain ⟨-, -, hd, hbefore⟩ := firstFree_spec hfirst
    refine ⟨d, rfl, mem_lowPts.mpr ⟨?_, hd⟩⟩
    by_contra hge
    rcases hbefore x (by omega) with hmem | hne
    · exact hxH hmem
    · exact hne hxfree

/-- with all entries below 8 held it finds the entry of the heap -/
theorem firstFree_heap_pt (hlow : lowPts ⊆ H.toFinset) (h9 : 9 ∉ H) : firstFree (tableOf .twoPt H) = some 9 := by
  have hfree : ptStateInit .twoPt 9 = .FREE := by decide
  rw [firstFree, List.find?_range_eq_some]
  refine ⟨by simp [tableOf, h9, hfree], by decide, fun j hj => ?_⟩
  have hj' : tableOf .twoPt H j ≠ .FREE := by
    unfold tableOf
    split_ifs with hmem
    · decide
    · intro hjfree
      have h8 : j ≠ 8 := by
        rintro rfl
        exact absurd hjfree (by decide)
      exact hmem (List.mem_toFinset.mp (hlow (mem_lowPts.mpr ⟨by omega, hjfree⟩)))
  simpa using hj'

/-- the entries that a step allocates are the ones added to those held -/
theorem changed_alloc (hD : ∀ i ∈ D, i ∉ H ∧ ptStateInit M i = .FREE) :
    changed (tableOf M H) (tableOf M (D ++ H)) .FREE .ALLOCATED = indices D := by
  refine List.filter_congr fun i _ => ?_
  rw [decide_eq_decide]
  unfold tableOf
  constructor
  · rintro ⟨hfree, halloc⟩
    by_contra hi
    by_cases hH : i ∈ H
    · simp [hH] at hfree
    · rw [if_neg (by simp [hi, hH])] at halloc
      rw [if_neg hH, halloc] at hfree
      exact absurd hfree (by decide)
  · intro hi
    exact ⟨by rw [if_neg (hD i hi).1, (hD i hi).2], by rw [if_pos (List.mem_append_left H hi)]⟩

theorem changed_swap (before after : ℕ → PtState) (x y : PtState) :
    changed before after x y = changed after before y x :=
  List.filter_congr fun _ _ => decide_eq_decide.mpr and_comm

/-- and those it frees are the ones taken away -/
theorem changed_free (hD : ∀ i ∈ D, i ∉ H ∧ ptStateInit M i = .FREE) :
    changed (tableOf M (D ++ H)) (tableOf M H) .ALLOCATED .FREE = indices D := by
  rw [changed_swap, changed_alloc hD]

/-- setting entries to free takes them away from those held -/
theorem foldl_free (hD : ∀ i ∈ D, i ∉ H ∧ ptStateInit M i = .FREE) :
    D.foldl (fun pt_state i => Function.update pt_state i .FREE) (tableOf M (D ++ H)) = tableOf M H := by
  have hgen : ∀ (D : List ℕ) (f : ℕ → PtState) (i : ℕ),
      D.foldl (fun pt_state i => Function.update pt_state i .FREE) f i = if i ∈ D then .FREE else f i := by
    intro D
    induction D with
    | nil => simp
    | cons d D ih =>
      intro f i
      rw [List.foldl_cons, ih]
      by_cases hD : i ∈ D
      · simp [hD]
      · by_cases hd : i = d
        · subst hd
          simp
        · simp [hD, hd]
  funext i
  rw [hgen]
  unfold tableOf
  by_cases hi : i ∈ D
  · rw [if_pos hi, if_neg (hD i hi).1, (hD i hi).2]
  · rw [if_neg hi]
    simp [hi]

/-! ## One search -/

section
variable {ptlPTAlloc : List ℕ → ℕ → Option ℕ}

/-- an entry that is free on the interface too is allocated -/
theorem ctAttach_of_free (hP : ∀ ni d, d ∉ ni → ptlPTAlloc ni d = some d) {ni : List ℕ}
    (hfirst : firstFree (tableOf M H) = some d) (hd : d ∉ ni) :
    ctAttach ptlPTAlloc ⟨tableOf M H, ni⟩ = (⟨tableOf M (d :: H), d :: ni⟩, .ok d) := by
  simp only [ctAttach, hfirst, hP ni d hd, ne_eq, not_true_eq_false, if_false, tableOf_cons]

/-- whatever Portals does, the entry is marked -/
theorem ctAttach_state (ptlPTAlloc : List ℕ → ℕ → Option ℕ) (t : Tables) (hfirst : firstFree t.pt_state = some d) :
    (ctAttach ptlPTAlloc t).1.pt_state = Function.update t.pt_state d .ALLOCATED := by
  simp only [ctAttach, hfirst]
  split
  · rfl
  · split_ifs <;> rfl

/-- without a free entry nothing changes -/
theorem ctAttach_none {t : Tables} (hfirst : firstFree t.pt_state = none) :
    ctAttach ptlPTAlloc t = (t, .error .outOfPtEntries) := by
  simp only [ctAttach, hfirst]

end

/-! ## The invariant -/

structure Inv (M : Mode) (s : St) : Prop where
  distinct : (heldBy s.live).Nodup
  table : s.tables.pt_state = tableOf M (heldBy s.live)
  free : ∀ i ∈ heldBy s.live, ptStateInit M i = .FREE
  ni : ∀ i, i ∈ s.tables.ni ↔ i ∈ ownPts M ∨ i ∈ heldBy s.live
  taken : ∀ l ∈ s.live, l.taken = indices l.ct.pts
  returned : ∀ f ∈ s.freed, f.returned = f.taken
  /-- in the two-entry mode -/
  low : M = .twoPt → ∀ i ∈ heldBy s.live, i < 8
  pair : M = .twoPt → ∀ l ∈ s.live, l.ct.pts.length = 2
  running : M = .twoPt → s.stopped = none

theorem inv_init (M : Mode) : Inv M (init M) := by
  constructor <;> simp [init, heldBy]
  funext i
  simp [tableOf]

/-- what is held is not an entry of the transport -/
theorem Inv.notOwn {s : St} (h : Inv M s) : ∀ i ∈ heldBy s.live, i ∉ ownPts M := by
  intro i hi hown
  have hfree := h.free i hi
  cases M with
  | onePt =>
    obtain rfl : i = 8 := by simpa [ownPts] using hown
    exact absurd hfree (by decide)
  | twoPt =>
    have hlow := h.low rfl i hi
    simp only [ownPts, List.mem_cons, List.not_mem_nil, or_false] at hown
    omega

theorem Inv.ok {s : St} (h : Inv M s) : PtOk M s where
  distinct := h.distinct
  notOwn := h.notOwn
  notReserved i hi := by
    rw [h.free i hi]
    decide
  allocated i _ := by
    rw [h.table, tableOf]
    split_ifs with hi
    · exact iff_of_true rfl hi
    · refine iff_of_false ?_ hi
      unfold ptStateInit
      split_ifs <;> decide
  returned := h.returned

theorem heldBy_append (live : List Live) (l : Live) : heldBy (live ++ [l]) = heldBy live ++ l.ct.pts := by
  simp [heldBy]

theorem length_heldBy {live : List Live} (h : ∀ l ∈ live, l.ct.pts.length = 2) :
    (heldBy live).length = 2 * live.length := by
  induction live with
  | nil => rfl
  | cons l live ih =>
    have hl := h l List.mem_cons_self
    have hrest := ih fun l' hl' => h l' (List.mem_cons_of_mem l hl')
    rw [heldBy, List.flatMap_cons, List.length_append, List.length_cons, hl, ← heldBy, hrest]
    omega

/-- a counter with fresh entries joins the live ones -/
theorem Inv.join {s : St} (h : Inv M s) (ct : Ct) {t : Tables} (hnodup : ct.pts.Nodup)
    (hfresh : ∀ i ∈ ct.pts, i ∉ heldBy s.live ∧ ptStateInit M i = .FREE)
    (htable : t.pt_state = tableOf M (ct.pts ++ heldBy s.live)) (hni : ∀ i, i ∈ t.ni ↔ i ∈ ct.pts ∨ i ∈ s.tables.ni)
    (htwo : M = .twoPt → ct.pts.length = 2 ∧ ∀ i ∈ ct.pts, i < 8) :
    Inv M { s with
      tables := t
      live := s.live ++ [⟨ct, changed s.tables.pt_state t.pt_state .FREE .ALLOCATED⟩] } where
  distinct := by
    rw [heldBy_append]
    exact h.distinct.append hnodup fun i hi hi' => (hfresh i hi').1 hi
  table := by
    rw [htable, heldBy_append]
    exact tableOf_congr fun i => by rw [List.mem_append, List.mem_append, or_comm]
  free i hi := by
    rw [heldBy_append, List.mem_append] at hi
    exact hi.elim (h.free i) fun hi => (hfresh i hi).2
  ni i := by
    rw [heldBy_append, List.mem_append, hni, h.ni]
    tauto
  taken l hl := by
    rcases List.mem_append.mp hl with hl | hl
    · exact h.taken l hl
    · obtain rfl := List.mem_singleton.mp hl
      rw [htable, h.table]
      exact changed_alloc hfresh
  returned := h.returned
  low hM i hi := by
    rw [heldBy_append, List.mem_append] at hi
    exact hi.elim (h.low hM i) ((htwo hM).2 i)
  pair hM l hl := by
    rcases List.mem_append.mp hl with hl | hl
    · exact h.pair hM l hl
    · obtain rfl := List.mem_singleton.mp hl
      exact (htwo hM).1
  running := h.running

/-- the entries that are free are not allocated on the interface -/
theorem Inv.notMem_ni {s : St} (h : Inv M s) (hd : d ∉ heldBy s.live) (hown : d ∉ ownPts M) : d ∉ s.tables.ni := by
  rw [h.ni, not_or]
  exact ⟨hown, hd⟩

/-! ## The steps -/

section
variable {ptlPTAlloc : List ℕ → ℕ → Option ℕ} (hP : ∀ ni d, d ∉ ni → ptlPTAlloc ni d = some d)
include hP

theorem Inv.create_onePt {s : St} (h : Inv .onePt s) (hrun : s.stopped = none) :
    Inv .onePt (step .onePt ptlPTAlloc s .create) := by
  have htables : s.tables = ⟨tableOf .onePt (heldBy s.live), s.tables.ni⟩ := by rw [← h.table]
  cases hfirst : firstFree (tableOf .onePt (heldBy s.live)) with
  | none =>
    have hstep : step .onePt ptlPTAlloc s .create = { s with stopped := some .outOfPtEntries } := by
      simp [step, hrun, ctCreate, ctAttach_none (h.table ▸ hfirst)]
    rw [hstep]
    exact { h with
      low := fun hM => absurd hM (by decide)
      pair := fun hM => absurd hM (by decide)
      running := fun hM => absurd hM (by decide) }
  | some d =>
    obtain ⟨-, hd, hfree, -⟩ := firstFree_spec hfirst
    have hown : d ∉ ownPts .onePt := by
      intro hmem
      obtain rfl : d = 8 := by simpa [ownPts] using hmem
      exact absurd hfree (by decide)
    have hattach := ctAttach_of_free hP hfirst (h.notMem_ni hd hown)
    rw [← htables] at hattach
    have hstep : step .onePt ptlPTAlloc s .create = { s with
        tables := ⟨tableOf .onePt (d :: heldBy s.live), d :: s.tables.ni⟩
        live := s.live ++ [⟨.onePt d,
          changed s.tables.pt_state (tableOf .onePt (d :: heldBy s.live)) .FREE .ALLOCATED⟩] } := by
      simp [step, hrun, ctCreate, hattach]
    rw [hstep]
    refine h.join (.onePt d) (List.nodup_singleton d) ?_ rfl (fun i => ?_) (fun hM => absurd hM (by decide))
    · intro i hi
      obtain rfl := List.mem_singleton.mp hi
      exact ⟨hd, hfree⟩
    · rw [List.mem_cons, Ct.pts, List.mem_singleton]

/-- in the two-entry mode the first of the two searches stays below entry 8 -/
theorem Inv.attach_low {s : St} (h : Inv .twoPt s) (hlen : s.live.length ≤ 3) :
    ∃ d ∈ lowPts, d ∉ heldBy s.live ∧
      ctAttach ptlPTAlloc s.tables = (⟨tableOf .twoPt (d :: heldBy s.live), d :: s.tables.ni⟩, .ok d) := by
  have htables : s.tables = ⟨tableOf .twoPt (heldBy s.live), s.tables.ni⟩ := by rw [← h.table]
  have hheld := length_heldBy (h.pair rfl)
  obtain ⟨d, hfirst, hlow⟩ := firstFree_low (H := heldBy s.live) (by omega)
  obtain ⟨-, hd, -, -⟩ := firstFree_spec hfirst
  have hown : d ∉ ownPts .twoPt := by
    have := (mem_lowPts.mp hlow).1
    simp only [ownPts, List.mem_cons, List.not_mem_nil, or_false]
    omega
  have hattach := ctAttach_of_free hP hfirst (h.notMem_ni hd hown)
  rw [← htables] at hattach
  exact ⟨d, hlow, hd, hattach⟩

theorem Inv.create_twoPt {s : St} (h : Inv .twoPt s) (hlen : s.live.length < 3) :
    Inv .twoPt (step .twoPt ptlPTAlloc s .create) := by
  have hrun := h.running rfl
  have hheld := length_heldBy (h.pair rfl)
  obtain ⟨d, hd, hdH, hattach⟩ := h.attach_low hP (by omega)
  obtain ⟨e, hfirst, he⟩ := firstFree_low (H := d :: heldBy s.live) (by rw [List.length_cons]; omega)
  obtain ⟨-, heH, -, -⟩ := firstFree_spec hfirst
  rw [List.mem_cons, not_or] at heH
  have hown : e ∉ ownPts .twoPt := by
    have := (mem_lowPts.mp he).1
    simp only [ownPts, List.mem_cons, List.not_mem_nil, or_false]
    omega
  have hni : e ∉ d :: s.tables.ni := by
    rw [List.mem_cons, not_or]
    exact ⟨heH.1, h.notMem_ni heH.2 hown⟩
  have hattach' := ctAttach_of_free hP hfirst hni
  have hstep : step .twoPt ptlPTAlloc s .create = { s with
      tables := ⟨tableOf .twoPt (e :: d :: heldBy s.live), e :: d :: s.tables.ni⟩
      live := s.live ++ [⟨.twoPt d e,
        changed s.tables.pt_state (tableOf .twoPt (e :: d :: heldBy s.live)) .FREE .ALLOCATED⟩] } := by
    simp [step, hrun, ctCreate, hattach, hattach']
  rw [hstep]
  have hpts : ∀ i, i ∈ (Ct.twoPt d e).pts ↔ i = d ∨ i = e := fun i => by simp [Ct.pts]
  refine h.join (.twoPt d e) ?_ ?_ (tableOf_congr fun i => ?_) (fun i => ?_) fun _ => ⟨rfl, ?_⟩
  · exact List.nodup_cons.mpr ⟨fun hmem => heH.1 (List.mem_singleton.mp hmem).symm, List.nodup_singleton e⟩
  · intro i hi
    rcases (hpts i).mp hi with rfl | rfl
    · exact ⟨hdH, (mem_lowPts.mp hd).2⟩
    · exact ⟨heH.2, (mem_lowPts.mp he).2⟩
  · rw [List.mem_append, hpts, List.mem_cons, List.mem_cons]
    tauto
  · rw [hpts, List.mem_cons, List.mem_cons]
    tauto
  · intro i hi
    rcases (hpts i).mp hi with rfl | rfl
    · exact (mem_lowPts.mp hd).1
    · exact (mem_lowPts.mp he).1

/-- **The slip.** With three counters live, whether Portals gives it or not, the next one marks entry 9 as allocated. -/
theorem create_takes_heap_pt {s : St} (h : Inv .twoPt s) (hlen : 3 ≤ s.live.length) :
    (step .twoPt ptlPTAlloc s .create).tables.pt_state 9 = .ALLOCATED := by
  have hrun := h.running rfl
  have hheld := length_heldBy (h.pair rfl)
  -- there is room for three below entry 8, and one entry more
  have hsub : (heldBy s.live).toFinset ⊆ lowPts := fun i hi =>
    mem_lowPts.mpr ⟨h.low rfl i (List.mem_toFinset.mp hi), h.free i (List.mem_toFinset.mp hi)⟩
  have hcard := Finset.card_le_card hsub
  rw [List.toFinset_card_of_nodup h.distinct] at hcard
  have hseven : lowPts.card = 7 := by decide
  obtain ⟨d, hd, hdH, hattach⟩ := h.attach_low hP (by omega)
  have hall : lowPts ⊆ (d :: heldBy s.live).toFinset := by
    refine (Finset.eq_of_subset_of_card_le ?_ ?_).ge
    · rw [List.toFinset_cons]
      exact Finset.insert_subset hd hsub
    · rw [List.toFinset_card_of_nodup (List.nodup_cons.mpr ⟨hdH, h.distinct⟩), List.length_cons]
      omega
  have h9 : 9 ∉ d :: heldBy s.live := by
    rw [List.mem_cons, not_or]
    refine ⟨?_, fun hmem => absurd (h.low rfl 9 hmem) (by decide)⟩
    rintro rfl
    exact absurd (mem_lowPts.mp hd).1 (by decide)
  have hstate := ctAttach_state ptlPTAlloc ⟨tableOf .twoPt (d :: heldBy s.live), d :: s.tables.ni⟩
    (firstFree_heap_pt hall h9)
  simp only [step, hrun, Option.isSome_none, Bool.false_eq_true, if_false, ctCreate, hattach]
  generalize ctAttach ptlPTAlloc ⟨tableOf .twoPt (d :: heldBy s.live), d :: s.tables.ni⟩ = r at hstate ⊢
  obtain ⟨t, res⟩ := r
  cases res with
  | error e => simp [show t.pt_state = _ from hstate]
  | ok heap_pt => simp [show t.pt_state = _ from hstate]

end

/-- what is held apart from one of the counters -/
theorem heldBy_eraseIdx {live : List Live} {k : ℕ} {l : Live} (hk : live[k]? = some l) :
    (heldBy live).Perm (l.ct.pts ++ heldBy (live.eraseIdx k)) := by
  obtain ⟨hlt, rfl⟩ := List.getElem?_eq_some_iff.mp hk
  exact ((List.getElem_cons_eraseIdx_perm hlt).symm.flatMap_right fun l => l.ct.pts)

theorem Inv.step_free {ptlPTAlloc : List ℕ → ℕ → Option ℕ} {s : St} (h : Inv M s) (hrun : s.stopped = none) (k : ℕ) :
    Inv M (step M ptlPTAlloc s (.free k)) := by
  cases hk : s.live[k]? with
  | none =>
    have hstep : step M ptlPTAlloc s (.free k) = s := by simp [step, hrun, hk]
    rw [hstep]
    exact h
  | some l =>
    have hperm := heldBy_eraseIdx hk
    have hmem : ∀ i, i ∈ heldBy s.live ↔ i ∈ l.ct.pts ∨ i ∈ heldBy (s.live.eraseIdx k) := fun i => by
      rw [hperm.mem_iff, List.mem_append]
    have hnodup := hperm.nodup_iff.mp h.distinct
    have hpts : ∀ i ∈ l.ct.pts, i ∉ heldBy (s.live.eraseIdx k) ∧ ptStateInit M i = .FREE := fun i hi =>
      ⟨fun hi' => (List.disjoint_of_nodup_append hnodup) hi hi', h.free i ((hmem i).mpr (.inl hi))⟩
    have htable : s.tables.pt_state = tableOf M (l.ct.pts ++ heldBy (s.live.eraseIdx k)) := by
      rw [h.table]
      exact tableOf_congr fun i => hperm.mem_iff
    have hfree : (ctFree s.tables l.ct).pt_state = tableOf M (heldBy (s.live.eraseIdx k)) := by
      simp only [ctFree, htable]
      exact foldl_free hpts
    have hstep : step M ptlPTAlloc s (.free k) = { s with
        tables := ctFree s.tables l.ct
        live := s.live.eraseIdx k
        freed := s.freed ++ [⟨l.taken,
          changed s.tables.pt_state (ctFree s.tables l.ct).pt_state .ALLOCATED .FREE⟩] } := by
      simp [step, hrun, hk]
    rw [hstep]
    constructor
    · exact hnodup.of_append_right
    · exact hfree
    · exact fun i hi => h.free i ((hmem i).mpr (.inr hi))
    · intro i
      have hown : i ∈ l.ct.pts → i ∉ ownPts M := fun hi => h.notOwn i ((hmem i).mpr (.inl hi))
      have hdisj : i ∈ l.ct.pts → i ∉ heldBy (s.live.eraseIdx k) := fun hi => (hpts i hi).1
      simp only [ctFree, List.mem_filter, decide_eq_true_eq, h.ni, hmem]
      tauto
    · exact fun l' hl' => h.taken l' (List.mem_of_mem_eraseIdx hl')
    · intro f hf
      rcases List.mem_append.mp hf with hf | hf
      · exact h.returned f hf
      · obtain rfl := List.mem_singleton.mp hf
        simp only [htable, hfree]
        rw [changed_free hpts, h.taken l (List.mem_of_getElem? hk)]
    · exact fun hM i hi => h.low hM i ((hmem i).mpr (.inr hi))
    · exact fun hM l' hl' => h.pair hM l' (List.mem_of_mem_eraseIdx hl')
    · exact h.running

/-! ## Sequences of calls -/

/-- **When the indices never clash.** `PtlPTAlloc` gives what it is asked for, if that is not in use. -/
theorem pt_ok_iff (M : Mode) (ptlPTAlloc : List ℕ → ℕ → Option ℕ)
    (hP : ∀ ni d, d ∉ ni → ptlPTAlloc ni d = some d) (calls : List Call) :
    (∀ n, PtOk M (run (step M ptlPTAlloc) (init M) (calls.take n))) ↔
      Meets (step M ptlPTAlloc) (CreateFits M) (init M) calls := by
  refine forall_take_iff_meets (step M ptlPTAlloc) (CreateFits M) (Inv M) (PtOk M) (fun _ h => h.ok) ?_ ?_ (init M)
    (inv_init M) calls
  · intro s c hfits h
    by_cases hrun : s.stopped = none
    · cases c with
      | free k => exact h.step_free hrun k
      | create =>
        cases M with
        | onePt => exact h.create_onePt hP hrun
        | twoPt => exact h.create_twoPt hP (hfits.resolve_left (by decide))
    · have hstep : step M ptlPTAlloc s c = s := by
        unfold step
        rw [if_pos (Option.isSome_iff_ne_none.mpr hrun)]
      rw [hstep]
      exact h
  · intro s c h hfits hok
    cases c with
    | free k => exact hfits trivial
    | create =>
      cases M with
      | onePt => exact hfits (.inl rfl)
      | twoPt =>
        have hlen : 3 ≤ s.live.length := not_lt.mp fun hlt => hfits (.inr hlt)
        have hheld := (hok.allocated 9 (by decide)).mp (create_takes_heap_pt hP h hlen)
        exact hok.notOwn 9 hheld (by decide)

/-- `PtlPTAlloc` as an interface does it that fails when the entry is in use -/
def portals (ni : List ℕ) (des_pt : ℕ) : Option ℕ := if des_pt ∈ ni then none else some des_pt

/-- two counters, of which the first is freed -/
theorem pt_ok_iff_two :
    (∀ n, PtOk .twoPt (run (step .twoPt portals) (init .twoPt) ([Call.create, .create, .free 0].take n))) ↔
      Meets (step .twoPt portals) (CreateFits .twoPt) (init .twoPt) [.create, .create, .free 0] :=
  pt_ok_iff .twoPt portals (fun _ _ hd => if_neg hd) [.create, .create, .free 0]

/-- the fourth counter without remote virtual addressing -/
theorem fourth_clashes :
    ¬ ∀ n, PtOk .twoPt (run (step .twoPt portals) (init .twoPt) ((List.replicate 4 Call.create).take n)) := by
  intro h
  have hok := h 4
  have hstate : (run (step .twoPt portals) (init .twoPt) ((List.replicate 4 Call.create).take 4)).tables.pt_state 9 =
      .ALLOCATED := by decide
  exact absurd (hok.notOwn 9 ((hok.allocated 9 (by decide)).mp hstate)) (by decide)

end SandiaShmem.Transport.PtlPt
