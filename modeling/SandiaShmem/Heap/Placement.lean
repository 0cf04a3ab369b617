/-
Where the blocks are: which chunk a large request gets, and when a block that is resized stays where it is.

- `malloc_large_best_fit`: a large request gets a smallest chunk that holds it.
- `dlrealloc_in_place_iff`: a block stays exactly if there is room behind it.
-/
import SandiaShmem.Heap.Calls

namespace SandiaShmem.Heap

open BitScan BitTrie Blocks Allocator

/-! ## Histories -/

/-- after the first call there is a segment -/
theorem Reached.inv {ops : List Op} {S : Store} (h : Reached ops S) (hx : ∃ x, S.live x ≠ none) :
    ∃ s bs, after ops = some s ∧ Inv .small s bs ∧ Tracks .small bs S.live := by
  obtain ⟨s, hafter, hR⟩ := h
  obtain ⟨x, hx⟩ := hx
  obtain ⟨n, hn⟩ := Option.ne_none_iff_exists'.mp hx
  obtain ⟨bs, -, -, hv, ht, -⟩ := hR.block hn
  exact ⟨s, bs, hafter, hv, ht⟩

/-- two blocks are freed that had others behind them -/
def twoFreed : List Op := [.malloc 3000, .malloc 100, .malloc 2000, .malloc 100, .free 65552, .free 68672]

theorem twoFreed_inv : ∃ s bs, after twoFreed = some s ∧ Inv .small s bs := by
  obtain ⟨S₁, h₁, hlive₁⟩ := reached_nil.malloc (n := 3000) (r := 65552) (.inl (by decide)) (by decide +kernel) (by decide)
  obtain ⟨S₂, h₂, hlive₂⟩ := h₁.malloc (n := 100) (r := 68560) (.inl (by decide)) (by decide +kernel) (by decide)
  obtain ⟨S₃, h₃, hlive₃⟩ := h₂.malloc (n := 2000) (r := 68672) (.inl (by decide)) (by decide +kernel) (by decide)
  obtain ⟨S₄, h₄, hlive₄⟩ := h₃.malloc (n := 100) (r := 70688) (.inl (by decide)) (by decide +kernel) (by decide)
  have hlive : S₄.live = fun x => if x = 70688 then some 100 else if x = 68672 then some 2000 else
      if x = 68560 then some 100 else if x = 65552 then some 3000 else none := by
    funext x
    simp only [hlive₄, hlive₃, hlive₂, hlive₁, Store.empty, Function.update_apply]
  obtain ⟨S₅, h₅, hlive₅⟩ := h₄.free (p := 65552) (r := 0) (by decide) (by simp [hlive]) (by decide +kernel)
  obtain ⟨S₆, h₆, hlive₆⟩ := h₅.free (p := 68672) (r := 0) (by decide) (by simp [hlive₅, hlive]) (by decide +kernel)
  obtain ⟨s, bs, hafter, h, -⟩ := h₆.inv ⟨70688, by simp [hlive₆, hlive₅, hlive]⟩
  exact ⟨s, bs, hafter, h⟩

/-! ## The chunk that is taken -/

section
variable {Y : Sys} {s : MState} {bs : List (ℕ × Tag)} {q nb : ℕ}

theorem ok_of_bind {α β : Type} {x : Except Stop α} {f : α → Except Stop β} {b : β} (h : x.bind f = .ok b) :
    ∃ a, x = .ok a ∧ f a = .ok b := by
  cases x with
  | error e => cases h
  | ok a => exact ⟨a, rfl, h⟩

/-- what `tmalloc_large` returns, whatever becomes of the rest of the chunk -/
theorem tmalloc_large_ret {mem v rsize : ℕ} {s' : MState} (hfind : findLarge Y s nb = .ok (v, rsize))
    (hcall : tmalloc_large Y s nb = .ok (mem, s')) :
    (mem = NULL ∧ s' = s ∧ (v ≠ 0 → sub s.dvsize nb ≤ rsize)) ∨
      (v ≠ 0 ∧ mem = chunk2mem v ∧ rsize < sub s.dvsize nb) := by
  unfold tmalloc_large at hcall
  rw [hfind] at hcall
  simp only [bind, Except.bind] at hcall
  by_cases hbetter : v ≠ 0 ∧ rsize < sub s.dvsize nb
  · refine .inr ⟨hbetter.1, ?_, hbetter.2⟩
    rw [if_pos hbetter] at hcall
    split_ifs at hcall with hok hrest
    · obtain ⟨s₁, -, hret⟩ := ok_of_bind hcall
      exact (Prod.mk.inj (Except.ok.inj hret)).1.symm
    · obtain ⟨s₁, -, hret⟩ := ok_of_bind hcall
      obtain ⟨s₂, -, hret'⟩ := ok_of_bind hret
      exact (Prod.mk.inj (Except.ok.inj hret')).1.symm
  · rw [if_neg hbetter] at hcall
    obtain ⟨rfl, rfl⟩ := Prod.mk.inj (Except.ok.inj hcall)
    exact .inl ⟨rfl, rfl, fun hv => not_lt.mp fun hlt => hbetter ⟨hv, hlt⟩⟩

theorem use_dv_fst (s : MState) (nb : ℕ) : (use_dv s nb).1 = chunk2mem s.dv := by
  unfold use_dv
  simp only
  split_ifs <;> rfl

/-- a free chunk that holds nb bytes -/
def Fits (Y : Sys) (s : MState) (bs : List (ℕ × Tag)) (nb q : ℕ) : Prop := q ∈ frees Y.base bs ∧ nb ≤ chunksize s.mem q

/-- a free chunk that holds a large request is in a tree bin, or the dv -/
theorem Fits.large (hfits : Fits Y s bs nb q) (hmin : MIN_LARGE_SIZE ≤ nb) : Large Y s bs q ∨ q = s.dv := by
  by_cases hdv : q = s.dv
  · exact .inr hdv
  · exact .inl ⟨⟨hfits.1, hdv⟩, hmin.trans hfits.2⟩

/-! ## The dv as a free chunk -/

theorem chunksize_dv (h : Inv Y s bs) (hpos : s.dvsize ≠ 0) : chunksize s.mem s.dv = s.dvsize :=
  h.chunksize_eq (h.dv_at hpos)

theorem dvsize_lt (h : Inv Y s bs) : s.dvsize < 2 ^ 64 := by
  by_cases hpos : s.dvsize ≠ 0
  · have hle := h.free_le (h.dv_at hpos)
    have hbound := Y.bound'
    omega
  · omega

theorem fits_dv_iff (h : Inv Y s bs) (hpos : 0 < nb) : Fits Y s bs nb s.dv ↔ nb ≤ s.dvsize := by
  constructor
  · rintro ⟨⟨k, hk⟩, hle⟩
    rcases h.dv with ⟨hz, -⟩ | hat
    · exact absurd (hz ▸ ⟨k, hk⟩) h.zero_notMem
    · rwa [h.chunksize_eq hat] at hle
  · intro hle
    have hdv : s.dvsize ≠ 0 := by omega
    exact ⟨⟨_, h.dv_at hdv⟩, (chunksize_dv h hdv).symm ▸ hle⟩

/-- if no chunk in a bin is a better fit than the dv -/
theorem malloc_rest_best_fit {mem : ℕ} {s' : MState} (h : Inv Y s bs) (hmin : MIN_LARGE_SIZE ≤ nb) (hpos : 0 < nb)
    (hbins : ∀ q, Large Y s bs q → nb ≤ chunksize s.mem q → nb ≤ s.dvsize ∧ s.dvsize ≤ chunksize s.mem q)
    (hcall : malloc_rest Y s nb = .ok (mem, s')) :
    (∃ v, Fits Y s bs nb v ∧ mem = chunk2mem v ∧ ∀ q, Fits Y s bs nb q → chunksize s.mem v ≤ chunksize s.mem q) ∨
      ((∀ q, ¬ Fits Y s bs nb q) ∧
        (if nb < s.topsize then .ok (split_top s nb) else sys_alloc Y s nb) = Except.ok (mem, s')) := by
  unfold malloc_rest at hcall
  by_cases hdv : nb ≤ s.dvsize
  · rw [if_pos hdv] at hcall
    refine .inl ⟨s.dv, (fits_dv_iff h hpos).mpr hdv, ?_, fun q hq => ?_⟩
    · rw [← use_dv_fst s nb, Except.ok.inj hcall]
    · rcases hq.large hmin with hlarge | rfl
      · rw [chunksize_dv h (by omega)]
        exact (hbins q hlarge hq.2).2
      · exact le_refl _
  · rw [if_neg hdv] at hcall
    refine .inr ⟨fun q hq => hdv ?_, hcall⟩
    rcases hq.large hmin with hlarge | rfl
    · exact (hbins q hlarge hq.2).1
    · exact (fits_dv_iff h hpos).mp hq

/-- a chunk that the search leaves to the dv is no smaller than the dv -/
theorem dv_le_of_rest {r : ℕ} (h : Inv Y s bs) (hlt : nb < 2 ^ 64) (hr : r + nb < 2 ^ 64)
    (hdv : sub s.dvsize nb ≤ r) : nb ≤ s.dvsize ∧ s.dvsize ≤ r + nb := by
  by_cases hle : nb ≤ s.dvsize
  · rw [sub_of_le hle (dvsize_lt h)] at hdv
    omega
  · rw [sub_of_lt (not_le.mp hle) hlt] at hdv
    omega

/-- **Best fit.** A large request gets a smallest free chunk that holds it, in a bin or as the dv; if there is none then it
gets the beginning of the top chunk. -/
theorem malloc_large_best_fit {mem : ℕ} {s' : MState} (h : Inv Y s bs) (hlen : Y.length < 2 ^ 40)
    (hmin : MIN_LARGE_SIZE ≤ nb) (hlt : nb < 2 ^ 64) (hcall : malloc_large Y s nb = .ok (mem, s')) :
    (∃ v, Fits Y s bs nb v ∧ mem = chunk2mem v ∧ ∀ q, Fits Y s bs nb q → chunksize s.mem v ≤ chunksize s.mem q) ∨
      ((∀ q, ¬ Fits Y s bs nb q) ∧
        (if nb < s.topsize then .ok (split_top s nb) else sys_alloc Y s nb) = Except.ok (mem, s')) := by
  have hpos : 0 < nb := by
    unfold MIN_LARGE_SIZE at hmin
    omega
  obtain ⟨b, hb⟩ := h.binned
  have hbest := bestLarge_best h hb hlen hmin hlt
  have hfind := findLarge_eq h hb hpos hlt
  unfold malloc_large at hcall
  by_cases hmap : s.treemap ≠ 0
  · rw [if_pos hmap] at hcall
    obtain ⟨⟨mem₁, s₁⟩, ht, hret⟩ := ok_of_bind hcall
    generalize b.bestLarge (chunksize s.mem) nb = best at hbest hfind
    obtain ⟨found, rsize⟩ := best
    have hptr : Fit.ptr (found, rsize) = (found.getD 0, rsize) := rfl
    rw [hptr] at hfind
    rcases tmalloc_large_ret hfind ht with ⟨rfl, rfl, hdv⟩ | ⟨hv, rfl, hless⟩
    · -- nothing was found, or nothing better than the dv
      simp only [ne_eq, not_true, if_false] at hret
      refine malloc_rest_best_fit h hmin hpos (fun q hq hle => ?_) hret
      cases found with
      | none => exact absurd ((hbest.none rfl).2 q hq) (not_lt.mpr hle)
      | some v =>
        obtain ⟨hlarge, hsize, hv64, hleast⟩ := hbest.some v rfl
        have hv0 : v ≠ 0 := fun heq => h.zero_notMem (heq ▸ hlarge.1.1)
        have hv := h.large_lt hlarge
        obtain ⟨hfits, hdvle⟩ := dv_le_of_rest h hlt (r := rsize) (by omega) (hdv hv0)
        have hq := hleast q hq hle
        exact ⟨hfits, by omega⟩
    · -- the chunk that was found is smaller than the dv
      have hne : chunk2mem (found.getD 0) ≠ NULL := by
        unfold chunk2mem NULL TWO_SIZE_T_SIZES SIZE_T_SIZE
        omega
      simp only [if_pos hne] at hret
      cases found with
      | none => exact absurd rfl hv
      | some v =>
        obtain ⟨hlarge, hsize, hv64, hleast⟩ := hbest.some v rfl
        refine .inl ⟨v, ⟨hlarge.1.1, by omega⟩, (Prod.mk.inj (Except.ok.inj hret)).1.symm, fun q hq => ?_⟩
        rcases hq.large hmin with hq' | rfl
        · exact hleast q hq' hq.2
        · have hle := (fits_dv_iff h hpos).mp hq
          rw [sub_of_le hle (dvsize_lt h)] at hless
          rw [chunksize_dv h (by omega)]
          omega
  · rw [if_neg hmap] at hcall
    exact malloc_rest_best_fit h hmin hpos
      (fun q hq _ => absurd hq (hb.large_none (hb.treemap.trans (not_not.mp hmap)) q)) hcall

end

/-- of two chunks the smaller one -/
theorem malloc_large_best_fit_small : ∃ s bs s', after twoFreed = some s ∧ malloc_large .small s 1024 = .ok (68672, s') ∧
    ((∃ v, Fits .small s bs 1024 v ∧ 68672 = chunk2mem v ∧
        ∀ q, Fits .small s bs 1024 q → chunksize s.mem v ≤ chunksize s.mem q) ∨
      ((∀ q, ¬ Fits .small s bs 1024 q) ∧
        (if 1024 < s.topsize then .ok (split_top s 1024) else sys_alloc .small s 1024) = Except.ok (68672, s'))) := by
  obtain ⟨s, bs, hafter, h⟩ := twoFreed_inv
  have hret : ((after twoFreed).bind fun s => (malloc_large .small s 1024).toOption.map Prod.fst) = some 68672 := by
    decide +kernel
  rw [hafter, Option.bind_some] at hret
  cases hcall : malloc_large .small s 1024 with
  | error e =>
    rw [hcall] at hret
    cases hret
  | ok ret =>
    obtain ⟨mem, s'⟩ := ret
    rw [hcall] at hret
    obtain rfl : mem = 68672 := Option.some.inj hret
    exact ⟨s, bs, s', hafter, hcall, malloc_large_best_fit h (by decide) (by decide) (by decide) hcall⟩

/-! ## The block that is resized -/

section
variable {Y : Sys} {s : MState} {bs : List (ℕ × Tag)} {p n bytes : ℕ}

/-- **When a block stays where it is.** Exactly if there is room behind its chunk. -/
theorem dlrealloc_in_place_iff (h : Inv Y s bs) (hp : At Y.base bs p n .used) (hreq : TameReq bytes)
    (hmax : bytes < MAX_REQUEST) :
    (∃ s', dlrealloc Y s (chunk2mem p) bytes = .ok (chunk2mem p, s')) ↔
      ¬ NoRoomBehind Y s bs p n (request2size bytes) := by
  have hmem2 : mem2chunk (chunk2mem p) = p := Nat.add_sub_cancel ..
  have hchunk := h.chunk hp
  have hpos := Y.base_pos'
  obtain ⟨hmin, h16, -, -⟩ := request2size_spec hmax
  unfold dlrealloc
  rw [if_neg chunk2mem_ne_null, if_neg (not_le.mpr hmax), hmem2]
  rcases try_realloc_chunk_spec h hp h16 hmin with ⟨hcall, hroom⟩ | ⟨m, s₁, bs₁, hcall, hroom, -⟩
  · refine iff_of_false ?_ (not_not.mpr hroom)
    rintro ⟨s', hret⟩
    have hz : ¬ NULL ≠ 0 := not_not.mpr rfl
    simp only [hcall, bind, Except.bind, if_neg hz] at hret
    rcases dlmalloc_spec (.inl h) hreq with ⟨s₁, hmalloc, -⟩ | ⟨q, m, s₁, bs₁, hmalloc, -, hall⟩
    · have hz' : ¬ NULL ≠ NULL := not_not.mpr rfl
      simp only [hmalloc, if_neg hz', Except.ok.injEq, Prod.mk.injEq] at hret
      exact chunk2mem_ne_null hret.1.symm
    · have hne := chunk2mem_ne_null (p := q)
      simp only [hmalloc, if_pos hne] at hret
      split at hret
      · cases hret
      · rw [Except.ok.injEq, Prod.mk.injEq] at hret
        have hqp : q = p := Nat.add_right_cancel hret.1
        exact hall.new n (hqp ▸ hp)
  · have hp0 : p ≠ 0 := by omega
    simp only [hcall, bind, Except.bind, if_pos hp0]
    exact iff_of_true ⟨s₁, rfl⟩ hroom

end

/-- the first of two blocks has to move, the second one need not -/
theorem dlrealloc_in_place_small : ∃ s bs, after [.malloc 100, .malloc 200] = some s ∧
    At Sys.small.base bs 65536 112 .used ∧ At Sys.small.base bs 65648 208 .used ∧
    NoRoomBehind .small s bs 65536 112 (request2size 2000) ∧
    (¬ ∃ s', dlrealloc .small s (chunk2mem 65536) 2000 = .ok (chunk2mem 65536, s')) ∧
    ¬ NoRoomBehind .small s bs 65648 208 (request2size 2000) ∧
    ∃ s', dlrealloc .small s (chunk2mem 65648) 2000 = .ok (chunk2mem 65648, s') := by
  obtain ⟨S₁, h₁, hlive₁⟩ := reached_nil.malloc (n := 100) (r := 65552) (.inl (by decide)) (by decide +kernel) (by decide)
  obtain ⟨S₂, h₂, hlive₂⟩ := h₁.malloc (n := 200) (r := 65664) (.inl (by decide)) (by decide +kernel) (by decide)
  have hfirst : S₂.live 65552 = some 100 := by simp [hlive₂, hlive₁]
  have hsecond : S₂.live 65664 = some 200 := by simp [hlive₂]
  obtain ⟨s, bs, hafter, h, ht⟩ := h₂.inv ⟨65552, by simp [hfirst]⟩
  have hsizes : (after [.malloc 100, .malloc 200]).map (fun s => (chunksize s.mem 65536, chunksize s.mem 65648)) =
      some (112, 208) := by decide +kernel
  change after [.malloc 100, .malloc 200] = some s at hafter
  rw [hafter, Option.map_some, Option.some.injEq, Prod.mk.injEq] at hsizes
  have hat : At Sys.small.base bs 65536 112 .used := by
    obtain ⟨p, k, hp, hat, -⟩ := ht.block _ _ hfirst
    obtain rfl : p = 65536 := chunk2mem_inj hp.symm
    rwa [← hsizes.1, h.chunksize_eq hat]
  have hat' : At Sys.small.base bs 65648 208 .used := by
    obtain ⟨p, k, hp, hat, -⟩ := ht.block _ _ hsecond
    obtain rfl : p = 65648 := chunk2mem_inj hp.symm
    rwa [← hsizes.2, h.chunksize_eq hat]
  have hroom : NoRoomBehind .small s bs 65536 112 (request2size 2000) := by
    rw [noRoomBehind_iff h (by decide) (InvOn.at_full hat')]
    exact ⟨nofun, nofun⟩
  have hstays : ∃ s', dlrealloc .small s (chunk2mem 65648) 2000 = .ok (chunk2mem 65648, s') := by
    have hret : ((after [.malloc 100, .malloc 200]).bind fun s => (dlrealloc .small s 65664 2000).toOption.map Prod.fst) =
        some 65664 := by decide +kernel
    rw [hafter, Option.bind_some] at hret
    cases hcall : dlrealloc .small s 65664 2000 with
    | error e =>
      rw [hcall] at hret
      cases hret
    | ok ret =>
      rw [hcall] at hret
      have hfst : ret.1 = 65664 := Option.some.inj hret
      exact ⟨ret.2, hcall.trans (congrArg Except.ok (Prod.ext hfst rfl))⟩
  refine ⟨s, bs, hafter, hat, hat', hroom, fun hin => ?_, ?_, hstays⟩
  · exact (dlrealloc_in_place_iff h hat (.inl (by decide)) (by decide)).mp hin hroom
  · exact (dlrealloc_in_place_iff h hat' (.inl (by decide)) (by decide)).mp hstays

end SandiaShmem.Heap
