/-
The tree of all PEs as `shmem_internal_collectives_init` builds it (`src/collectives.c`), with the `int` arithmetic of
its two loops. `Collectives.Trees` has the same tree in unbounded numbers.

`tree_radix` is the `long` that SHMEM_COLL_RADIX was set to, and nothing checks it. A division by 0 and a result that
does not fit into an `int` stop the program; a loop that goes on for ever runs out of every number of rounds. The memory
for the children is taken to be there.

- `treeLoop_hom`: what the loop does at a child does not influence the loop, so counting and filling see the same
  children.
- `treeLoop_zero`: PE 0 leaves the loop only when a power of the radix is beyond the number of PEs.
- `treeLoop_eq`, `treeLoop_neg`: with such a power within the `int`s every PE gets through.
- `init_ok_iff`: the radixes for which the initialisation works.
- `init_spanning_tree`: what the PEs have then is a spanning tree.
-/
import SandiaShmem.Core.CInt
import SandiaShmem.Collectives.Trees

namespace SandiaShmem.Collectives.CollInit

open CInt

/-! ## Model -/

/-- how a loop does not end well -/
inductive Stop where
  | fault (f : Fault)
  | running
deriving DecidableEq, Repr

section
variable (num_pes tree_radix my_pe : ℤ)

/-- the first part of the body: `tmp_radix` and `my_root` -/
def level (i : ℤ) : Except Fault (ℤ × ℤ) := do
  let q ← cdiv 32 num_pes i
  let tmp_radix := if q < tree_radix then wrap 32 (q + 1) else wrap 32 tree_radix
  let block ← checked 32 (tmp_radix * i)
  let c ← cdiv 32 my_pe block
  let my_root ← checked 32 (c * block)
  return (tmp_radix, my_root)

/-- the body of the loop over j, which starts at 1; `act` is what it does with the child `my_pe + i * j` -/
def childStep {σ : Type} (act : ℤ → σ → σ) (i : ℤ) (s : σ) (j : ℕ) : Except Fault σ := do
  let x ← checked 32 (i * (j + 1))
  let c ← checked 32 (my_pe + x)
  return if c < num_pes then act c s else s

/-- `for (j = 1 ; j < tmp_radix ; ++j)` -/
def childLoop {σ : Type} (act : ℤ → σ → σ) (i tmp_radix : ℤ) (s : σ) : Except Fault σ :=
  (List.range (tmp_radix - 1).toNat).foldlM (childStep num_pes my_pe act i) s

/-- `for (i = 1 ; i <= num_pes ; i *= tree_radix)`: the last `my_root`, and what came of `act` -/
def treeLoop {σ : Type} (act : ℤ → σ → σ) : ℕ → ℤ → ℤ → σ → Except Stop (ℤ × σ)
  | 0, i, my_root, s => if i ≤ num_pes then .error .running else .ok (my_root, s)
  | fuel + 1, i, my_root, s =>
    if i ≤ num_pes then
      match level num_pes tree_radix my_pe i with
      | .error f => .error (.fault f)
      | .ok (tmp_radix, my_root) =>
        if my_root ≠ my_pe then .ok (my_root, s)
        else
          match childLoop num_pes my_pe act i tmp_radix s with
          | .error f => .error (.fault f)
          | .ok s =>
            match checked 32 (i * tree_radix) with
            | .error f => .error (.fault f)
            | .ok i => treeLoop act fuel i my_root s
    else .ok (my_root, s)

/-- `full_tree_num_children++` -/
def countAct (_ : ℤ) (full_tree_num_children : ℕ) : ℕ := full_tree_num_children + 1

/-- `full_tree_children[k--] = c`: k, and the stores so far -/
def fillAct (c : ℤ) (s : ℤ × List (ℤ × ℤ)) : ℤ × List (ℤ × ℤ) := (s.1 - 1, s.2 ++ [(s.1, c)])

/-- what the initialisation sets; the array is given by the stores, of a value at an index -/
structure Tree where
  full_tree_num_children : ℕ
  stores : List (ℤ × ℤ)
  full_tree_parent : ℤ
deriving DecidableEq, Repr, Inhabited

/-- the tree part of `shmem_internal_collectives_init` -/
def collectivesInit (fuel : ℕ) : Except Stop Tree := do
  let (my_root, full_tree_num_children) ← treeLoop num_pes tree_radix my_pe countAct fuel 1 0 0
  let (my_root, (_, stores)) ← treeLoop num_pes tree_radix my_pe fillAct fuel 1 my_root
    ((full_tree_num_children : ℤ) - 1, [])
  return ⟨full_tree_num_children, stores, my_root⟩

/-- the stores are one at every index of the array, from the last one down to 0 -/
def Tree.Filled (T : Tree) : Prop :=
  T.stores.map Prod.fst = (List.range T.full_tree_num_children).map fun x : ℕ => (T.full_tree_num_children : ℤ) - 1 - x

/-- both loops end without a fault, and the second one fills the array -/
def InitOk : Prop := ∃ fuel T, collectivesInit num_pes tree_radix my_pe fuel = .ok T ∧ T.Filled

end

/-- `full_tree_children` from index 0 on, when it has been filled from its end -/
def Tree.children (T : Tree) : List ℤ := (T.stores.map Prod.snd).reverse

/-! ## Counting and filling -/

section
variable {num_pes tree_radix my_pe : ℤ} {σ τ : Type}

theorem childStep_hom {act : ℤ → σ → σ} {act' : ℤ → τ → τ} {h : σ → τ} (hact : ∀ c s, h (act c s) = act' c (h s))
    (i : ℤ) (s : σ) (j : ℕ) :
    childStep num_pes my_pe act' i (h s) j = (childStep num_pes my_pe act i s j).map h := by
  unfold childStep
  cases checked 32 (i * (j + 1)) with
  | error f => rfl
  | ok x =>
    simp only [bind, Except.bind]
    cases checked 32 (my_pe + x) with
    | error f => rfl
    | ok c =>
      simp only [pure, Except.pure, Except.map]
      split_ifs
      · rw [hact]
      · rfl

theorem childLoop_hom {act : ℤ → σ → σ} {act' : ℤ → τ → τ} {h : σ → τ} (hact : ∀ c s, h (act c s) = act' c (h s))
    (i tmp_radix : ℤ) (s : σ) :
    childLoop num_pes my_pe act' i tmp_radix (h s) = (childLoop num_pes my_pe act i tmp_radix s).map h := by
  unfold childLoop
  induction List.range (tmp_radix - 1).toNat generalizing s with
  | nil => rfl
  | cons j l ih =>
    rw [List.foldlM_cons, List.foldlM_cons, childStep_hom hact]
    cases childStep num_pes my_pe act i s j with
    | error f => rfl
    | ok s' => exact ih s'

/-- what is done at the children does not influence the loop -/
theorem treeLoop_hom {act : ℤ → σ → σ} {act' : ℤ → τ → τ} {h : σ → τ} (hact : ∀ c s, h (act c s) = act' c (h s))
    (fuel : ℕ) (i my_root : ℤ) (s : σ) :
    treeLoop num_pes tree_radix my_pe act' fuel i my_root (h s) =
      (treeLoop num_pes tree_radix my_pe act fuel i my_root s).map fun r => (r.1, h r.2) := by
  induction fuel generalizing i my_root s with
  | zero =>
    unfold treeLoop
    split_ifs <;> rfl
  | succ fuel ih =>
    unfold treeLoop
    by_cases hi : i ≤ num_pes
    · rw [if_pos hi, if_pos hi]
      cases hlevel : level num_pes tree_radix my_pe i with
      | error f => rfl
      | ok r =>
        obtain ⟨tmp_radix, root⟩ := r
        simp only
        by_cases hroot : root ≠ my_pe
        · rw [if_pos hroot, if_pos hroot]
          rfl
        · rw [if_neg hroot, if_neg hroot, childLoop_hom hact]
          cases hchild : childLoop num_pes my_pe act i tmp_radix s with
          | error f => rfl
          | ok s' =>
            simp only [Except.map]
            cases hnext : checked 32 (i * tree_radix) with
            | error f => rfl
            | ok i' => exact ih i' root s'
    · rw [if_neg hi, if_neg hi]
      rfl

/-- a round in which the PE does not start its block is the last one -/
theorem treeLoop_break {act : ℤ → σ → σ} {i tmp_radix root : ℤ} (hi : i ≤ num_pes)
    (hlevel : level num_pes tree_radix my_pe i = .ok (tmp_radix, root)) (hne : root ≠ my_pe) (fuel : ℕ) (my_root : ℤ)
    (s : σ) : treeLoop num_pes tree_radix my_pe act (fuel + 1) i my_root s = .ok (root, s) := by
  rw [treeLoop, if_pos hi, hlevel]
  exact if_pos hne

/-- and one in which it does is followed by the next level -/
theorem treeLoop_next {act : ℤ → σ → σ} {i i' tmp_radix : ℤ} {s s' : σ} (hi : i ≤ num_pes)
    (hlevel : level num_pes tree_radix my_pe i = .ok (tmp_radix, my_pe))
    (hchild : childLoop num_pes my_pe act i tmp_radix s = .ok s') (hnext : checked 32 (i * tree_radix) = .ok i')
    (fuel : ℕ) (my_root : ℤ) :
    treeLoop num_pes tree_radix my_pe act (fuel + 1) i my_root s =
      treeLoop num_pes tree_radix my_pe act fuel i' my_pe s' := by
  rw [treeLoop, if_pos hi, hlevel]
  simp only [ne_eq, not_true_eq_false, if_false, hchild, hnext]

/-- the first round sets my_root -/
theorem treeLoop_root (act : ℤ → σ → σ) {i : ℤ} (hi : i ≤ num_pes) (fuel : ℕ) (my_root my_root' : ℤ) (s : σ) :
    treeLoop num_pes tree_radix my_pe act fuel i my_root s =
      treeLoop num_pes tree_radix my_pe act fuel i my_root' s := by
  cases fuel with
  | zero => rw [treeLoop, treeLoop, if_pos hi, if_pos hi]
  | succ fuel => rw [treeLoop, treeLoop, if_pos hi, if_pos hi]

/-- the loop that makes a list of the children -/
def listAct (c : ℤ) (cs : List ℤ) : List ℤ := cs ++ [c]

theorem foldl_listAct (act : ℤ → σ → σ) (s : σ) (c : ℤ) (cs : List ℤ) :
    (listAct c cs).foldl (fun s c => act c s) s = act c (cs.foldl (fun s c => act c s) s) := by
  simp [listAct]

/-- every loop does with the children in the list what it is to do with them -/
theorem treeLoop_eq_list (act : ℤ → σ → σ) (fuel : ℕ) (i my_root : ℤ) (s : σ) :
    treeLoop num_pes tree_radix my_pe act fuel i my_root s =
      (treeLoop num_pes tree_radix my_pe listAct fuel i my_root []).map fun r =>
        (r.1, r.2.foldl (fun s c => act c s) s) :=
  treeLoop_hom (h := fun cs : List ℤ => cs.foldl (fun s c => act c s) s) (foldl_listAct act s) fuel i my_root []

end

theorem foldl_countAct (cs : List ℤ) (n : ℕ) : cs.foldl (fun n c => countAct c n) n = n + cs.length := by
  induction cs generalizing n with
  | nil => rfl
  | cons c cs ih =>
    rw [List.foldl_cons, ih, List.length_cons, countAct]
    omega

/-- filling goes down from k -/
theorem foldl_fillAct (cs : List ℤ) (k : ℤ) (stores : List (ℤ × ℤ)) :
    (cs.foldl (fun s c => fillAct c s) (k, stores)).2.map Prod.fst =
        stores.map Prod.fst ++ (List.range cs.length).map (fun x : ℕ => k - x) ∧
      (cs.foldl (fun s c => fillAct c s) (k, stores)).2.map Prod.snd = stores.map Prod.snd ++ cs := by
  induction cs generalizing k stores with
  | nil => simp
  | cons c cs ih =>
    obtain ⟨h1, h2⟩ := ih (k - 1) (stores ++ [(k, c)])
    have hindex : (List.range cs.length).map (fun x : ℕ => k - 1 - (x : ℤ)) =
        (List.range cs.length).map ((fun x : ℕ => k - (x : ℤ)) ∘ Nat.succ) := by
      refine List.map_congr_left fun x _ => ?_
      simp only [Function.comp_apply]
      push_cast
      ring
    rw [List.foldl_cons, fillAct, h1, h2, List.length_cons, List.range_succ_eq_map, List.map_cons, List.map_map, hindex]
    simp

/-- what the initialisation sets, when the loop finds the children in the list -/
theorem collectivesInit_of_list {num_pes tree_radix my_pe root : ℤ} {fuel : ℕ} {cs : List ℤ} (h1 : 1 ≤ num_pes)
    (hlist : treeLoop num_pes tree_radix my_pe listAct fuel 1 0 [] = .ok (root, cs)) :
    ∃ T, collectivesInit num_pes tree_radix my_pe fuel = .ok T ∧ T.full_tree_num_children = cs.length ∧
      T.full_tree_parent = root ∧ T.stores.map Prod.snd = cs ∧ T.Filled := by
  obtain ⟨hfst, hsnd⟩ := foldl_fillAct cs ((cs.length : ℤ) - 1) []
  refine ⟨⟨cs.length, (cs.foldl (fun s c => fillAct c s) ((cs.length : ℤ) - 1, [])).2, root⟩, ?_, rfl, rfl, ?_, ?_⟩
  · have hcount : treeLoop num_pes tree_radix my_pe countAct fuel 1 0 0 = .ok (root, cs.length) := by
      rw [treeLoop_eq_list, hlist, Except.map, foldl_countAct, Nat.zero_add]
    have hfill : treeLoop num_pes tree_radix my_pe fillAct fuel 1 root ((cs.length : ℤ) - 1, []) =
        .ok (root, cs.foldl (fun s c => fillAct c s) ((cs.length : ℤ) - 1, [])) := by
      rw [treeLoop_root fillAct h1 fuel root 0, treeLoop_eq_list, hlist, Except.map]
    rw [collectivesInit, hcount]
    simp only [bind, Except.bind, hfill]
    rfl
  · rw [hsnd, List.map_nil, List.nil_append]
  · rw [Tree.Filled, hfst, List.map_nil, List.nil_append]

/-! ## One level -/

/-- the radix of a level, in `int`s -/
def tmpRadix (num_pes tree_radix i : ℤ) : ℤ :=
  if num_pes.tdiv i < tree_radix then wrap 32 (num_pes.tdiv i + 1) else wrap 32 tree_radix

section
variable {num_pes tree_radix my_pe i : ℤ}

/-- a level that is passed gives the root of the block that the PE is in -/
theorem level_eq_ok {r : ℤ × ℤ} (h : level num_pes tree_radix my_pe i = .ok r) :
    r = (tmpRadix num_pes tree_radix i,
      my_pe.tdiv (tmpRadix num_pes tree_radix i * i) * (tmpRadix num_pes tree_radix i * i)) := by
  unfold level at h
  obtain ⟨q, hq, h⟩ := bind_eq_ok.mp h
  obtain ⟨-, -, rfl⟩ := cdiv_eq_ok.mp hq
  obtain ⟨block, hblock, h⟩ := bind_eq_ok.mp h
  obtain ⟨-, rfl⟩ := checked_eq_ok.mp hblock
  obtain ⟨c, hc, h⟩ := bind_eq_ok.mp h
  obtain ⟨-, -, rfl⟩ := cdiv_eq_ok.mp hc
  obtain ⟨root, hroot, h⟩ := bind_eq_ok.mp h
  obtain ⟨-, rfl⟩ := checked_eq_ok.mp hroot
  exact (Except.ok.inj h).symm

theorem level_of_fits (hnum : 0 ≤ num_pes) (hnumfit : Fits 32 num_pes) (hpe : 0 ≤ my_pe) (hpefit : Fits 32 my_pe)
    (hi : i ≠ 0) (hblock : Fits 32 (tmpRadix num_pes tree_radix i * i)) (hne : tmpRadix num_pes tree_radix i * i ≠ 0) :
    level num_pes tree_radix my_pe i = .ok (tmpRadix num_pes tree_radix i,
      my_pe.tdiv (tmpRadix num_pes tree_radix i * i) * (tmpRadix num_pes tree_radix i * i)) := by
  obtain ⟨h0, hle⟩ := tdiv_mul_bounds hpe (tmpRadix num_pes tree_radix i * i)
  unfold level
  rw [cdiv_of_ne hi (fits_tdiv hnum hnumfit i)]
  show (checked 32 (tmpRadix num_pes tree_radix i * i) >>= _) = _
  rw [checked_of_fits hblock]
  show (cdiv 32 my_pe (tmpRadix num_pes tree_radix i * i) >>= _) = _
  rw [cdiv_of_ne hne (fits_tdiv hpe hpefit _)]
  show (checked 32 (my_pe.tdiv (tmpRadix num_pes tree_radix i * i) * (tmpRadix num_pes tree_radix i * i)) >>= _) = _
  rw [checked_of_fits (fits_of_le h0 hle hpefit)]
  rfl

/-- the children of a level, if none of them overflows -/
theorem childLoop_of_fits {tmp_radix : ℤ} (hfits : ∀ j < (tmp_radix - 1).toNat,
    Fits 32 (i * ((j : ℤ) + 1)) ∧ Fits 32 (my_pe + i * ((j : ℤ) + 1))) (cs : List ℤ) :
    childLoop num_pes my_pe listAct i tmp_radix cs =
      .ok (cs ++
        ((List.range (tmp_radix - 1).toNat).map fun j : ℕ => my_pe + i * ((j : ℤ) + 1)).filter (· < num_pes)) := by
  unfold childLoop
  have hall : ∀ j ∈ List.range (tmp_radix - 1).toNat,
      Fits 32 (i * ((j : ℤ) + 1)) ∧ Fits 32 (my_pe + i * ((j : ℤ) + 1)) := fun j hj => hfits j (List.mem_range.mp hj)
  generalize List.range (tmp_radix - 1).toNat = l at hall
  induction l generalizing cs with
  | nil => simp [pure, Except.pure]
  | cons j l ih =>
    obtain ⟨h1, h2⟩ := hall j List.mem_cons_self
    have hstep : childStep num_pes my_pe listAct i cs j =
        .ok (if my_pe + i * ((j : ℤ) + 1) < num_pes then cs ++ [my_pe + i * ((j : ℤ) + 1)] else cs) := by
      unfold childStep
      rw [checked_of_fits h1]
      show (checked 32 (my_pe + i * ((j : ℤ) + 1)) >>= _) = _
      rw [checked_of_fits h2]
      rfl
    rw [List.foldlM_cons, hstep]
    show List.foldlM _ _ l = _
    rw [ih _ fun j hj => hall j (List.mem_cons_of_mem _ hj), List.map_cons]
    by_cases hc : my_pe + i * ((j : ℤ) + 1) < num_pes
    · rw [if_pos hc, List.filter_cons_of_pos (by simpa using hc), List.append_assoc, List.singleton_append]
    · rw [if_neg hc, List.filter_cons_of_neg (by simpa using hc)]

end

/-! ## PE 0 -/

/-- PE 0 is the root of every block, so it goes on until the distance of a level is beyond the number of PEs -/
theorem treeLoop_zero {num_pes tree_radix : ℤ} {σ : Type} (act : ℤ → σ → σ) (fuel : ℕ) {i : ℤ} (my_root : ℤ) (s : σ)
    {out : ℤ × σ} (hi : Fits 32 i) (h : treeLoop num_pes tree_radix 0 act fuel i my_root s = .ok out) :
    ∃ n : ℕ, num_pes < i * tree_radix ^ n ∧ i * tree_radix ^ n < 2 ^ 31 := by
  induction fuel generalizing i my_root s with
  | zero =>
    rw [treeLoop] at h
    split_ifs at h with hle
    exact ⟨0, by rw [pow_zero, mul_one]; omega, by rw [pow_zero, mul_one]; exact hi.2⟩
  | succ fuel ih =>
    by_cases hle : i ≤ num_pes
    · rw [treeLoop, if_pos hle] at h
      cases hlevel : level num_pes tree_radix 0 i with
      | error f => simp [hlevel] at h
      | ok r =>
        have hroot : r.2 = 0 := by
          rw [level_eq_ok hlevel, Int.zero_tdiv, zero_mul]
        simp only [hlevel, hroot, ne_eq, not_true_eq_false, if_false] at h
        cases hchild : childLoop num_pes 0 act i r.1 s with
        | error f => simp [hchild] at h
        | ok s' =>
          cases hnext : checked 32 (i * tree_radix) with
          | error f => simp [hchild, hnext] at h
          | ok i' =>
            obtain ⟨hfit, rfl⟩ := checked_eq_ok.mp hnext
            simp only [hchild, hnext] at h
            obtain ⟨n, h1, h2⟩ := ih _ _ hfit h
            refine ⟨n + 1, ?_, ?_⟩ <;> rwa [pow_succ', ← mul_assoc]
    · exact ⟨0, by rw [pow_zero, mul_one]; omega, by rw [pow_zero, mul_one]; exact hi.2⟩

/-! ## A radix of at least 2 -/

/-- a power of the radix is above the number of PEs and an `int` -/
structure PowWithin (N R k : ℕ) : Prop where
  two_le : 2 ≤ R
  lt : N < R ^ k
  fits : R ^ k < 2 ^ 31

section
variable {N R p k : ℕ}

theorem PowWithin.fits_of_le (h : PowWithin N R k) {x : ℕ} (hx : x ≤ R ^ k) : Fits 32 (x : ℤ) := by
  have := h.fits
  exact ⟨by norm_num, by norm_num; omega⟩

theorem PowWithin.succ_le (h : PowWithin N R k) {l : ℕ} (hl : R ^ l ≤ N) : R ^ (l + 1) ≤ R ^ k := by
  have hR := h.two_le
  have hlk : l < k := by
    by_contra hge
    have := Nat.pow_le_pow_right (show 0 < R by omega) (not_lt.mp hge)
    have := h.lt
    omega
  exact Nat.pow_le_pow_right (by omega) hlk

theorem PowWithin.tmpRadix_eq (h : PowWithin N R k) {l : ℕ} (hl : R ^ l ≤ N) :
    tmpRadix N R (R ^ l : ℕ) = (levelRadix N R (R ^ l) : ℕ) := by
  have hR := h.two_le
  have hRle : R ≤ R ^ k := le_trans (Nat.le_self_pow (by omega) R) (h.succ_le hl)
  unfold tmpRadix levelRadix
  rw [← Int.ofNat_tdiv]
  by_cases hq : N / R ^ l < R
  · rw [if_pos (by exact_mod_cast hq), if_pos hq]
    exact_mod_cast wrap_of_fits (by omega) (h.fits_of_le (show N / R ^ l + 1 ≤ R ^ k by omega))
  · rw [if_neg (by exact_mod_cast hq), if_neg hq]
    exact wrap_of_fits (by omega) (h.fits_of_le hRle)

theorem PowWithin.blockSize_le (h : PowWithin N R k) {l : ℕ} (hl : R ^ l ≤ N) : blockSize N R l ≤ R ^ k := by
  refine le_trans ?_ (h.succ_le hl)
  rw [blockSize, pow_succ, mul_comm]
  exact Nat.mul_le_mul_left _ (levelRadix_le _)

/-- the children of a level are below the power too -/
theorem PowWithin.child_le (h : PowWithin N R k) {l j : ℕ} (hl : R ^ l ≤ N) (hp : p < N) (hd : blockSize N R l ∣ p)
    (hj : j < levelRadix N R (R ^ l) - 1) : p + R ^ l * (j + 1) ≤ R ^ k := by
  have hR := h.two_le
  have hlt := h.lt
  have hstep : R ^ l * (j + 1) < blockSize N R l := by
    rw [blockSize, Nat.mul_comm]
    exact Nat.mul_lt_mul_of_pos_right (by omega) (Nat.pow_pos (by omega))
  by_cases htop : R ^ (l + 1) ≤ N
  · -- two multiples of the block
    rw [blockSize_of_le hR htop] at hd hstep
    have hlk : l + 1 ≤ k := by
      by_contra hge
      have := Nat.pow_lt_pow_right (show 1 < R by omega) (not_le.mp hge)
      omega
    obtain ⟨a, ha⟩ := hd
    obtain ⟨b, hb⟩ := Nat.pow_dvd_pow R hlk
    have hab : a < b := by
      have hmul : R ^ (l + 1) * a < R ^ (l + 1) * b := by omega
      exact Nat.lt_of_mul_lt_mul_left hmul
    have := Nat.mul_le_mul_left (R ^ (l + 1)) (Nat.succ_le_of_lt hab)
    rw [Nat.mul_succ] at this
    omega
  · -- the top block has everybody, so the PE is 0
    have hblock := lt_blockSize hR (not_le.mp htop)
    obtain rfl : p = 0 := Nat.eq_zero_of_dvd_of_lt hd (hp.trans hblock)
    have := h.blockSize_le hl
    omega

/-- the level of a PE -/
theorem PowWithin.level_eq (h : PowWithin N R k) {l : ℕ} (hl : R ^ l ≤ N) (hp : p < N) :
    level N R p (R ^ l : ℕ) =
      .ok ((levelRadix N R (R ^ l) : ℕ), (p / blockSize N R l * blockSize N R l : ℕ)) := by
  have hR := h.two_le
  have hpow : 0 < R ^ l := Nat.pow_pos (by omega)
  have hpos : 0 < blockSize N R l := blockSize_pos hR l
  have hblock : tmpRadix N R (R ^ l : ℕ) * (R ^ l : ℕ) = (blockSize N R l : ℤ) := by
    rw [h.tmpRadix_eq hl, blockSize]
    push_cast
    rfl
  have hlevel : level N R p (R ^ l : ℕ) = _ :=
    level_of_fits (by omega) (h.fits_of_le h.lt.le) (by omega) (h.fits_of_le (hp.le.trans h.lt.le)) (by omega)
      (by rw [hblock]; exact h.fits_of_le (h.blockSize_le hl)) (by rw [hblock]; omega)
  rw [hlevel, hblock, h.tmpRadix_eq hl, ← Int.ofNat_tdiv]
  push_cast
  rfl

/-- the children that a PE finds on a level -/
theorem PowWithin.childLoop_eq (h : PowWithin N R k) {l : ℕ} (hl : R ^ l ≤ N) (hp : p < N)
    (hd : blockSize N R l ∣ p) (cs : List ℤ) :
    childLoop N p listAct (R ^ l : ℕ) (levelRadix N R (R ^ l) : ℕ) cs =
      .ok (cs ++ ((((List.range (levelRadix N R (R ^ l) - 1)).map fun j => p + R ^ l * (j + 1)).filter (· < N)).map
        fun c : ℕ => (c : ℤ))) := by
  have hcount : (((levelRadix N R (R ^ l) : ℕ) : ℤ) - 1).toNat = levelRadix N R (R ^ l) - 1 := by omega
  have hcast : ∀ j : ℕ, (p : ℤ) + (R ^ l : ℕ) * ((j : ℤ) + 1) = (p + R ^ l * (j + 1) : ℕ) := fun j => by push_cast; rfl
  rw [childLoop_of_fits, hcount]
  · have hmap : ((List.range (levelRadix N R (R ^ l) - 1)).map fun j : ℕ => (p : ℤ) + (R ^ l : ℕ) * ((j : ℤ) + 1)) =
        ((List.range (levelRadix N R (R ^ l) - 1)).map fun j => p + R ^ l * (j + 1)).map fun c : ℕ => (c : ℤ) := by
      rw [List.map_map]
      exact List.map_congr_left fun j _ => hcast j
    rw [hmap, List.filter_map]
    congr 3
    refine List.filter_congr fun c _ => ?_
    simp
  · intro j hj
    rw [hcount] at hj
    have hle := h.child_le hl hp hd hj
    refine ⟨?_, ?_⟩
    · exact_mod_cast h.fits_of_le (show R ^ l * (j + 1) ≤ R ^ k by omega)
    · exact_mod_cast h.fits_of_le hle

/-- the distance of the next level -/
theorem PowWithin.next_eq (h : PowWithin N R k) {l : ℕ} (hl : R ^ l ≤ N) :
    checked 32 ((R ^ l : ℕ) * (R : ℤ)) = .ok ((R ^ (l + 1) : ℕ) : ℤ) := by
  have hmul : ((R ^ l : ℕ) : ℤ) * (R : ℤ) = ((R ^ (l + 1) : ℕ) : ℤ) := by rw [pow_succ, Nat.cast_mul]
  rw [hmul, checked_of_fits (h.fits_of_le (h.succ_le hl))]

/-- a round of the loop on unbounded numbers, for a PE that does not start the block -/
theorem fullTreeLoop_break {l : ℕ} (hl : R ^ l ≤ N) (hd : ¬ blockSize N R l ∣ p) (fuel root : ℕ) :
    fullTreeLoop N R p (fuel + 1) (R ^ l) root = ([], p / blockSize N R l * blockSize N R l) := by
  have hne := div_mul_ne_iff.mpr hd
  rw [blockSize] at hne ⊢
  simp only [fullTreeLoop, hl, if_true]
  rw [if_pos hne]

/-- and for one that does -/
theorem fullTreeLoop_next {l : ℕ} (hl : R ^ l ≤ N) (hd : blockSize N R l ∣ p) (fuel root : ℕ) :
    fullTreeLoop N R p (fuel + 1) (R ^ l) root =
      (((List.range (levelRadix N R (R ^ l) - 1)).map fun j => p + R ^ l * (j + 1)).filter (· < N) ++
        (fullTreeLoop N R p fuel (R ^ (l + 1)) p).1, (fullTreeLoop N R p fuel (R ^ (l + 1)) p).2) := by
  have heq : p / blockSize N R l * blockSize N R l = p := Nat.div_mul_cancel hd
  rw [blockSize] at heq
  simp only [fullTreeLoop, hl, if_true, heq, ne_eq, not_true_eq_false, if_false, pow_succ]

/-- the loop finds what the loop on unbounded numbers finds -/
theorem treeLoop_eq (h : PowWithin N R k) (hp : p < N) (fuel l root : ℕ) (cs : List ℤ) (hfuel : N < R ^ (l + fuel)) :
    treeLoop N R p listAct fuel (R ^ l : ℕ) root cs =
      .ok ((fullTreeLoop N R p fuel (R ^ l) root).2,
        cs ++ (fullTreeLoop N R p fuel (R ^ l) root).1.map fun c : ℕ => (c : ℤ)) := by
  induction fuel generalizing l root cs with
  | zero =>
    rw [treeLoop, if_neg (by rw [Nat.add_zero] at hfuel; omega)]
    simp [fullTreeLoop]
  | succ fuel ih =>
    by_cases hle : R ^ l ≤ N
    · have hcast : ((R ^ l : ℕ) : ℤ) ≤ (N : ℤ) := Int.ofNat_le.mpr hle
      by_cases hd : blockSize N R l ∣ p
      · have hlevel := h.level_eq hle hp
        rw [Nat.div_mul_cancel hd] at hlevel
        rw [treeLoop_next hcast hlevel (h.childLoop_eq hle hp hd cs) (h.next_eq hle),
          ih (l + 1) p _ (by rwa [show l + 1 + fuel = l + (fuel + 1) by omega]), fullTreeLoop_next hle hd,
          List.map_append, List.append_assoc]
      · have hne : ((p / blockSize N R l * blockSize N R l : ℕ) : ℤ) ≠ p :=
          Nat.cast_injective.ne (div_mul_ne_iff.mpr hd)
        rw [treeLoop_break hcast (h.level_eq hle hp) hne, fullTreeLoop_break hle hd]
        simp
    · rw [treeLoop, if_neg (by exact_mod_cast hle)]
      simp [fullTreeLoop, hle]

end

/-! ## A radix of at most −2 -/

section
variable {N r p : ℤ} {k l : ℕ}

theorem abs_pow_le (hr : r ≤ -2) (hpos : 0 < r ^ k) (hlk : l ≤ k) : |r ^ l| ≤ r ^ k := by
  rw [← abs_of_pos hpos, abs_pow, abs_pow]
  exact pow_le_pow_right₀ (by rw [abs_of_neg (by omega)]; omega) hlk

/-- with such a radix no level has children, and the blocks are not larger than the power above the number of PEs -/
theorem tmpRadix_neg (h1 : 1 ≤ N) (hr : r ≤ -2) (hlt : N < r ^ k) (hfits : r ^ k < 2 ^ 31) (hlk : l + 1 ≤ k) :
    tmpRadix N r (r ^ l) < 0 ∧ tmpRadix N r (r ^ l) * r ^ l ≠ 0 ∧ Fits 32 (tmpRadix N r (r ^ l) * r ^ l) := by
  have hpow : ∀ n : ℕ, r ^ n ≠ 0 := fun n => pow_ne_zero n (by omega)
  have hle : |r ^ (l + 1)| ≤ r ^ k := abs_pow_le hr (by omega) hlk
  have hr1 : |r ^ 1| ≤ r ^ k := abs_pow_le hr (by omega) (by omega)
  obtain ⟨h0, hN⟩ := tdiv_mul_bounds (show 0 ≤ N by omega) (r ^ l)
  have hq : Fits 32 (N.tdiv (r ^ l)) := fits_tdiv (by omega) (fits_of_le (by omega) hlt.le ⟨by omega, hfits⟩) _
  unfold tmpRadix
  split_ifs with hlast
  · -- the quotient is negative, so the distance of the level is
    have hneg : r ^ l < 0 := by
      by_contra hge
      have := Int.tdiv_nonneg (show 0 ≤ N by omega) (not_lt.mp hge)
      omega
    have hmul : (N.tdiv (r ^ l) + 1) * r ^ l = N.tdiv (r ^ l) * r ^ l + r ^ l := by ring
    have hpos : 0 < (N.tdiv (r ^ l) + 1) * r ^ l := mul_pos_of_neg_of_neg (by omega) hneg
    rw [wrap_of_fits (by omega) (show Fits 32 (N.tdiv (r ^ l) + 1) from ⟨by have := hq.1; omega, by omega⟩)]
    exact ⟨by omega, by omega, fits_of_le (by omega) (show _ ≤ r ^ k by omega) ⟨by omega, hfits⟩⟩
  · rw [wrap_of_fits (by omega) (fits_of_abs (by rw [pow_one] at hr1; omega)), ← pow_succ']
    exact ⟨by omega, hpow _, fits_of_abs (by omega)⟩

/-- every PE gets through the loop without children -/
theorem treeLoop_neg (h1 : 1 ≤ N) (hr : r ≤ -2) (hlt : N < r ^ k) (hfits : r ^ k < 2 ^ 31) (hp0 : 0 ≤ p) (hpN : p < N)
    (d l : ℕ) (hlk : l + d = k) (my_root : ℤ) :
    ∃ root, treeLoop N r p listAct d (r ^ l) my_root [] = .ok (root, []) := by
  induction d generalizing l my_root with
  | zero =>
    rw [Nat.add_zero] at hlk
    rw [treeLoop, hlk, if_neg (by omega)]
    exact ⟨my_root, rfl⟩
  | succ d ih =>
    by_cases hle : r ^ l ≤ N
    · obtain ⟨hneg, hne, hblock⟩ := tmpRadix_neg h1 hr hlt hfits (show l + 1 ≤ k by omega)
      have hfitsN : Fits 32 N := fits_of_le (by omega) hlt.le ⟨by omega, hfits⟩
      have hlevel := level_of_fits (by omega) hfitsN hp0 (fits_of_le hp0 hpN.le hfitsN) (pow_ne_zero l (by omega))
        hblock hne
      by_cases hroot : p.tdiv (tmpRadix N r (r ^ l) * r ^ l) * (tmpRadix N r (r ^ l) * r ^ l) = p
      · rw [hroot] at hlevel
        have hnone : (tmpRadix N r (r ^ l) - 1).toNat = 0 := by omega
        have hchild : childLoop N p listAct (r ^ l) (tmpRadix N r (r ^ l)) [] = .ok [] := by
          rw [childLoop, hnone]
          rfl
        have habs : |r ^ (l + 1)| ≤ r ^ k := abs_pow_le hr (by omega) (by omega)
        have hnext : checked 32 (r ^ l * r) = .ok (r ^ (l + 1)) := by
          rw [← pow_succ, checked_of_fits (fits_of_abs (by omega))]
        rw [treeLoop_next hle hlevel hchild hnext]
        exact ih (l + 1) (by omega) p
      · exact ⟨_, treeLoop_break hle hlevel hroot d my_root []⟩
    · rw [treeLoop, if_neg hle]
      exact ⟨my_root, rfl⟩

end

/-! ## Which radixes work -/

/-- the initialisation of PE 0 needs a power of the radix above the number of PEs -/
theorem InitOk.exists_pow {N r : ℤ} (h : InitOk N r 0) : ∃ k : ℕ, N < r ^ k ∧ r ^ k < 2 ^ 31 := by
  obtain ⟨fuel, T, hT, -⟩ := h
  obtain ⟨out, hout, -⟩ := bind_eq_ok.mp hT
  simpa using treeLoop_zero countAct fuel 0 0 (show Fits 32 1 by decide) hout

theorem initOk_of_list {N r p root : ℤ} {fuel : ℕ} {cs : List ℤ} (h1 : 1 ≤ N)
    (hlist : treeLoop N r p listAct fuel 1 0 [] = .ok (root, cs)) : InitOk N r p := by
  obtain ⟨T, hT, -, -, -, hfilled⟩ := collectivesInit_of_list h1 hlist
  exact ⟨fuel, T, hT, hfilled⟩

theorem treeLoop_one {N R p k : ℕ} (h : PowWithin N R k) (hp : p < N) :
    treeLoop N R p listAct (N + 1) 1 0 [] =
      .ok (fullTreeParent N R p, (fullTreeLoop N R p (N + 1) 1 0).1.map fun c : ℕ => (c : ℤ)) := by
  have heq := treeLoop_eq h hp (N + 1) 0 0 [] (lt_pow_fuel h.two_le)
  rwa [pow_zero, Nat.cast_one, List.nil_append] at heq

/-- **The radixes for which the initialisation works.** -/
theorem init_ok_iff {N r : ℤ} (h1 : 1 ≤ N) :
    (∀ p, 0 ≤ p → p < N → InitOk N r p) ↔ ∃ k : ℕ, N < r ^ k ∧ r ^ k < 2 ^ 31 := by
  refine ⟨fun h => (h 0 le_rfl (by omega)).exists_pow, ?_⟩
  rintro ⟨k, hlt, hfits⟩ p hp0 hpN
  -- the powers of −1, 0 and 1 are not above anything
  have habs : ¬ |r| ≤ 1 := by
    intro hle
    have hpow : |r ^ k| ≤ 1 := by
      rw [abs_pow]
      exact pow_le_one₀ (abs_nonneg r) hle
    have := le_abs_self (r ^ k)
    omega
  by_cases hr : 2 ≤ r
  · lift N to ℕ using by omega
    lift r to ℕ using by omega
    lift p to ℕ using hp0
    have h : PowWithin N r k := ⟨by omega, by exact_mod_cast hlt, by exact_mod_cast hfits⟩
    exact initOk_of_list h1 (treeLoop_one h (by omega))
  · have hneg : r ≤ -2 := by
      rw [abs_le] at habs
      omega
    obtain ⟨root, hloop⟩ := treeLoop_neg h1 hneg hlt hfits hp0 hpN k 0 (Nat.zero_add k) 0
    rw [pow_zero] at hloop
    exact initOk_of_list h1 hloop

/-- two PEs and the radix 2: the power is 4 -/
theorem init_ok_iff_two : (∀ p, 0 ≤ p → p < 2 → InitOk 2 2 p) ↔ ∃ k : ℕ, (2 : ℤ) < 2 ^ k ∧ (2 : ℤ) ^ k < 2 ^ 31 :=
  init_ok_iff (by decide)

/-- with the radix 0 PE 0 divides by 0, and with the radix 1 it goes on for ever -/
theorem radix_zero_one_fail : ¬ InitOk 2 0 0 ∧ ¬ InitOk 2 1 0 := by
  refine ⟨fun h => ?_, fun h => ?_⟩
  · obtain ⟨k, hlt, -⟩ := h.exists_pow
    have : (0 : ℤ) ^ k ≤ 1 := pow_le_one₀ le_rfl (by decide)
    omega
  · obtain ⟨k, hlt, -⟩ := h.exists_pow
    rw [one_pow] at hlt
    omega

example : collectivesInit 2 0 0 5 = .error (.fault .divZero) := by decide

/-! ## The tree of all PEs -/

/-- the initialisation of a PE gives its place in the tree -/
theorem PowWithin.collectivesInit_eq {N R p k : ℕ} (h : PowWithin N R k) (h1 : 1 ≤ N) (hp : p < N) :
    ∃ T, collectivesInit N R p (N + 1) = .ok T ∧ T.Filled ∧ T.full_tree_parent = fullTreeParent N R p ∧
      T.children = (fullTreeChildren N R p).map (fun c : ℕ => (c : ℤ)) := by
  obtain ⟨T, hT, -, hparent, hsnd, hfilled⟩ := collectivesInit_of_list (by omega) (treeLoop_one h hp)
  refine ⟨T, hT, hfilled, hparent, ?_⟩
  rw [Tree.children, hsnd, fullTreeChildren, List.map_reverse]

theorem image_range (N : ℕ) : (Nat.cast : ℕ → ℤ) '' Finset.range N = Set.Ico (0 : ℤ) N := by
  ext p
  simp only [Finset.coe_range, Set.mem_image, Set.mem_Iio, Set.mem_Ico]
  constructor
  · rintro ⟨p, hp, rfl⟩
    omega
  · rintro ⟨hp0, hpN⟩
    exact ⟨p.toNat, by omega, by omega⟩

/-- **The initialisation makes a spanning tree of all PEs**, when the products are within the `int`s. -/
theorem init_spanning_tree {N R : ℤ} (h1 : 1 ≤ N) (hR : 2 ≤ R) (hpow : ∃ k : ℕ, N < R ^ k ∧ R ^ k < 2 ^ 31) :
    ∃ (fuel : ℕ) (T : ℤ → Tree),
      (∀ p ∈ Set.Ico 0 N, collectivesInit N R p fuel = .ok (T p) ∧ (T p).Filled) ∧
      SpanningTree (Set.Ico 0 N) 0 (fun p => (T p).full_tree_parent) fun p => (T p).children := by
  obtain ⟨k, hlt, hfits⟩ := hpow
  lift N to ℕ using by omega
  lift R to ℕ using by omega
  have h : PowWithin N R k := ⟨by omega, by exact_mod_cast hlt, by exact_mod_cast hfits⟩
  choose! T hT hfilled hparent hchildren using fun p (hp : p < N) => h.collectivesInit_eq (by omega) hp
  refine ⟨N + 1, fun p => T p.toNat, ?_, ?_⟩
  · rintro p ⟨hp0, hpN⟩
    lift p to ℕ using hp0
    exact ⟨hT p (by omega), hfilled p (by omega)⟩
  · rw [← image_range]
    refine (fullTree N R (by omega) h.two_le).spanningTree Nat.cast_injective ?_ ?_
    · exact fun p hp => hparent p (Finset.mem_range.mp hp)
    · exact fun p hp => hchildren p (Finset.mem_range.mp hp)

/-- six PEs and the radix 2: the power is 8 -/
theorem init_spanning_tree_six :
    ∃ (fuel : ℕ) (T : ℤ → Tree),
      (∀ p ∈ Set.Ico 0 6, collectivesInit 6 2 p fuel = .ok (T p) ∧ (T p).Filled) ∧
      SpanningTree (Set.Ico 0 6) 0 (fun p => (T p).full_tree_parent) fun p => (T p).children :=
  init_spanning_tree (by decide) (by decide) ⟨3, by decide, by decide⟩

example : collectivesInit 6 2 0 7 = .ok ⟨3, [(2, 1), (1, 2), (0, 4)], 0⟩ := by decide

end SandiaShmem.Collectives.CollInit
