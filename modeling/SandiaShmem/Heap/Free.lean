/-
Freeing (`dlfree` and `dispose_chunk` in `src/malloc.c`): a chunk is merged with the free chunks before and behind it,
or with the top chunk, and put into a bin unless the dv is part of it.

- `InvOn.merge`, `InvOn.merge_free`, `InvOn.merge_top`: chunks become one free chunk, or part of the top chunk.
- `Gathered.forward_spec`, `consolidate_spec`: the two directions.
- `dlfree_spec`: a chunk in use can always be freed, and nothing changes for the others.
-/
import SandiaShmem.Heap.Malloc

namespace SandiaShmem.Heap

open Blocks

/-! ## Model -/

/-- who consolidates: `dlfree` makes some checks more and trims the top chunk -/
inductive Caller where
  | free
  | dispose
deriving DecidableEq, Repr

def Caller.stop : Caller → Stop
  | free => .usage
  | dispose => .corruption

/-- a free chunk goes to its bin; `dlfree` counts the large ones -/
def bin_chunk (Y : Sys) (c : Caller) (s : MState) (p psize : ℕ) : Except Stop MState := do
  let s ← insert_chunk Y s p psize
  if c = .free ∧ is_small psize = false then
    let release_checks := sub s.release_checks 1
    if release_checks = 0 then .ok (release_unused_segments { s with release_checks })
    else .ok { s with release_checks }
  else .ok s

/-- `consolidate forward`; next is behind the chunk -/
def forward (Y : Sys) (c : Caller) (s : MState) (p psize next : ℕ) : Except Stop MState :=
  let ok := match c with
    | .free => p < next && pinuse s.mem next
    | .dispose => ok_address s next
  if ok then
    if cinuse s.mem next = false then
      if next = s.top then
        let tsize := s.topsize + psize
        let s := { s with topsize := tsize, top := p, mem := set_head s.mem p ⟨tsize, true, false⟩,
                          dv := if p = s.dv then 0 else s.dv, dvsize := if p = s.dv then 0 else s.dvsize }
        if c = .free ∧ s.trim_check < tsize then .ok (sys_trim Y s 0) else .ok s
      else if next = s.dv then
        let dsize := s.dvsize + psize
        .ok { s with dvsize := dsize, dv := p, mem := set_size_and_pinuse_of_free_chunk s.mem p dsize }
      else do
        let nsize := chunksize s.mem next
        let psize := psize + nsize
        let s ← unlink_chunk Y s next nsize
        let mem := set_size_and_pinuse_of_free_chunk s.mem p psize
        if p = s.dv then .ok { s with mem, dvsize := psize }
        else bin_chunk Y c { s with mem } p psize
    else bin_chunk Y c { s with mem := set_free_with_pinuse s.mem p psize next } p psize
  else .error c.stop

/-- `consolidate backward`, and then forward; an mmapped chunk, of which there is none, cannot be given back -/
def consolidate (Y : Sys) (c : Caller) (s : MState) (p psize : ℕ) : Except Stop MState :=
  let next := p + psize
  if pinuse s.mem p then forward Y c s p psize next
  else if is_mmapped s.mem p then .ok s
  else
    let prevsize := prev_foot s.mem p
    let prev := sub p prevsize
    let psize := psize + prevsize
    if ok_address s prev then
      if prev ≠ s.dv then do
        let s ← unlink_chunk Y s prev prevsize
        forward Y c s prev psize next
      else if pinuse s.mem next ∧ cinuse s.mem next then
        .ok { s with dvsize := psize, mem := set_free_with_pinuse s.mem prev psize next }
      else forward Y c s prev psize next
    else .error c.stop

def dispose_chunk (Y : Sys) (s : MState) (p psize : ℕ) : Except Stop MState := consolidate Y .dispose s p psize

def dlfree (Y : Sys) (s : MState) (mem : ℕ) : Except Stop MState :=
  if mem ≠ NULL then
    let p := mem2chunk mem
    if ok_address s p ∧ is_inuse s.mem p then consolidate Y .free s p (chunksize s.mem p) else .error .usage
  else .ok s

/-! ## Merging -/

section
variable {Y : Sys} {s : MState} {bs pre mid post : List (ℕ × Tag)} {a p q n m k : ℕ} {t : Tag} {mem mem' : Mem} {pin : Bool}
  {F : Set ℕ}

/-- chunks become one free chunk, or the top chunk -/
theorem Layout.merge (t : Tag) (mem' : Mem) (h : Layout mem a pin (pre ++ (mid ++ post))) (hp : p = a + total pre)
    (hpin : pinAfter pin pre = true) (ht : t = .free ∨ t = .top) (h16 : 16 ∣ total mid) (hmin : t.min ≤ total mid)
    (hhead : head mem' p = ⟨total mid, true, false⟩) (hfoot : t = .free → mem' (p + total mid) = total mid)
    (hout : ∀ x, x < p + 8 ∨ p + total mid + 8 < x → mem' x = mem x)
    (hnext : post ≠ [] → head mem' (p + total mid) = { head mem (p + total mid) with pinuse := false })
    (hpost : ∀ b ∈ post.head?, b.2 = .used ∨ b.2 = .foot) :
    Layout mem' a pin (pre ++ ((total mid, t) :: post)) := by
  have hnot : decide (t = Tag.used) = false := by rcases ht with rfl | rfl <;> rfl
  subst hp
  refine h.replace _ [(total mid, t)] _ ⟨⟨?_, h16, hmin, fun _ => hpin, hfoot⟩, trivial⟩ (by simp) hout ?_ ?_
  · rw [hhead, hpin, hnot]
  · simpa only [pinAfter, hnot] using hnext
  · intro b hb hb'
    rcases hpost b hb with hu | hu <;> simp [hu] at hb'

/-- the free chunks that are left when those in the middle are merged -/
theorem frees_merge (hpos : ∀ b ∈ pre ++ (mid ++ post), 0 < b.1) (hp : p = a + total pre) (hmid : mid ≠ []) :
    (∀ q, q ∈ frees a pre ∨ q ∈ frees (p + total mid) post ↔ q ∈ frees a (pre ++ (mid ++ post)) \ frees p mid) ∧
      p ∉ frees a (pre ++ (mid ++ post)) \ frees p mid := by
  have hpre : ∀ q ∈ frees a pre, q < p := fun q hq =>
    hp ▸ lt_of_mem_frees hq fun b hb => hpos b (List.mem_append_left _ hb)
  have hmidpos : ∀ b ∈ mid, 0 < b.1 := fun b hb => hpos b (by simp [hb])
  have htotal : 0 < total mid := by
    obtain ⟨b, bs, rfl⟩ := List.exists_cons_of_ne_nil hmid
    have := hmidpos b List.mem_cons_self
    rw [total_cons]
    omega
  have hbounds : ∀ q ∈ frees p mid, p ≤ q ∧ q < p + total mid := fun q hq =>
    ⟨le_of_mem_frees hq, lt_of_mem_frees hq hmidpos⟩
  have hpost : ∀ q ∈ frees (p + total mid) post, p + total mid ≤ q := fun q hq => le_of_mem_frees hq
  have hiff : ∀ q, q ∈ frees a pre ∨ q ∈ frees (p + total mid) post ↔
      q ∈ frees a (pre ++ (mid ++ post)) \ frees p mid := by
    intro q
    rw [Set.mem_sdiff, mem_frees_append, mem_frees_append, ← hp]
    constructor
    · rintro (hq | hq)
      · exact ⟨.inl hq, fun hm => by have := hpre q hq; have := hbounds q hm; omega⟩
      · exact ⟨.inr (.inr hq), fun hm => by have := hpost q hq; have := hbounds q hm; omega⟩
    · rintro ⟨hq | hq | hq, hnot⟩
      · exact .inl hq
      · exact absurd hq hnot
      · exact .inr hq
  refine ⟨hiff, fun hmem => ?_⟩
  rcases (hiff p).mpr hmem with hq | hq
  · exact lt_irrefl _ (hpre p hq)
  · have := hpost p hq
    omega

/-- the words of a user of another chunk are not near the chunks in the middle -/
theorem payload_merge {x : ℕ} (hp : p = a + total pre) (hq : At a (pre ++ (mid ++ post)) q k .used)
    (hnot : ¬ At p mid q k .used) (hx : Payload q k x) : x < p + 8 ∨ p + total mid + 8 < x := by
  obtain ⟨h1, h2⟩ := hx
  unfold TWO_SIZE_T_SIZES SIZE_T_SIZE at h1
  rw [at_append, at_append, ← hp] at hq
  rcases hq with hq | hq | hq
  · have := hq.bounds
    omega
  · exact absurd hq hnot
  · have := hq.bounds
    omega

/-- a chunk in use at p is free now, nothing else has changed for the users, and the chunks of F are in the bins -/
structure FreedOn (Y : Sys) (s s' : MState) (bs bs' : List (ℕ × Tag)) (F : Set ℕ) (p : ℕ) : Prop where
  inv : InvOn Y s' bs' F
  live : ∀ q k, At Y.base bs' q k .used ↔ At Y.base bs q k .used ∧ q ≠ p
  data : ∀ q k, At Y.base bs q k .used → q ≠ p → ∀ x, Payload q k x → s'.mem x = s.mem x

/-- and the call is over -/
abbrev Freed (Y : Sys) (s s' : MState) (bs bs' : List (ℕ × Tag)) (p : ℕ) : Prop :=
  FreedOn Y s s' bs bs' (frees Y.base bs' \ {s'.dv}) p

section
variable {s₁ s' : MState} {bs' : List (ℕ × Tag)} {F G : Set ℕ}

theorem FreedOn.done (h : FreedOn Y s s' bs bs' F p) (hF : F = frees Y.base bs' \ {s'.dv}) : Freed Y s s' bs bs' p := by
  rwa [hF] at h

/-- a chunk has left its bin before -/
theorem FreedOn.of_relinked (h : InvOn Y s bs F) (hr : Relinked Y F s s₁) (hf : FreedOn Y s₁ s' bs bs' G p) :
    FreedOn Y s s' bs bs' G p :=
  ⟨hf.inv, hf.live, fun q k hq hne x hx => (hf.data q k hq hne x hx).trans (h.relinked_payload hr h.free hq hx)⟩

/-- a chunk enters its bin afterwards -/
theorem FreedOn.enter (h : FreedOn Y s s' bs bs' F p) (hq : At Y.base bs' q n .free) (hqF : q ∉ F) :
    ∃ s₁, insert_chunk Y s' q n = .ok s₁ ∧ Relinked Y (insert q F) s' s₁ ∧ FreedOn Y s s₁ bs bs' (insert q F) p := by
  obtain ⟨s₁, hop, hr, hinv⟩ := h.inv.enter hq hqF
  refine ⟨s₁, hop, hr, hinv, h.live, fun r k hrk hne x hx => ?_⟩
  rw [← h.data r k hrk hne x hx]
  exact h.inv.relinked_payload hr hinv.free ((h.live r k).mpr ⟨hrk, hne⟩) hx

/-- the counter of `release_unused_segments` is of no account -/
theorem FreedOn.set_release_checks (rc : ℕ) (h : FreedOn Y s s' bs bs' F p) :
    FreedOn Y s { s' with release_checks := rc } bs bs' F p :=
  have hinv := h.inv
  ⟨⟨hinv.base, hinv.curr, hinv.fits, hinv.least, hinv.footprint, hinv.layout, hinv.tags, hinv.top, hinv.size, hinv.dv,
    hinv.free, hinv.binned.of_same rfl rfl rfl⟩, h.live, h.data⟩

end

/-- the chunks in the middle: one of them is in use, at p -/
structure Middle (a : ℕ) (mid : List (ℕ × Tag)) (p : ℕ) : Prop where
  one : ∀ q k, At a mid q k .used → q = p
  isUsed : ∃ k, At a mid p k .used

theorem Middle.ne_nil (h : Middle a mid p) : mid ≠ [] := by
  rintro rfl
  obtain ⟨k, hk⟩ := h.isUsed
  exact hk

/-- what is in use but not in the middle -/
theorem Middle.live (h : Middle a mid p) {b : ℕ} (hpos : ∀ b ∈ pre ++ (mid ++ post), 0 < b.1) (ha : a = b + total pre)
    (hq : At b (pre ++ (mid ++ post)) q k .used) : q ≠ p ↔ ¬ At a mid q k .used := by
  constructor
  · exact fun hne hmid => hne (h.one q k hmid)
  · rintro hnot rfl
    obtain ⟨k', hk'⟩ := h.isUsed
    have hat : At b (pre ++ (mid ++ post)) q k' .used := by
      rw [at_append, at_append, ← ha]
      exact .inr (.inl hk')
    obtain ⟨rfl, -⟩ := hat.unique hpos hq
    exact hnot hk'

/-- a free chunk of m bytes has been written at p -/
structure FreeWritten (mem mem' : Mem) (p m : ℕ) : Prop where
  head_eq : head mem' p = ⟨m, true, false⟩
  foot : mem' (p + m) = m
  out : ∀ x, x < p + 8 ∨ p + m + 8 < x → mem' x = mem x
  next : head mem' (p + m) = { head mem (p + m) with pinuse := false }

/-- chunks in the middle become one free chunk: the row that results, and the sizes in it -/
theorem InvOn.merge (h : InvOn Y s (pre ++ (mid ++ post)) F) (hp : p = Y.base + total pre) (hmid : mid ≠ [])
    (hpin : pinAfter true pre = true) (hw : FreeWritten s.mem mem' p (total mid))
    (hpost : ∃ k rest, post = (k, .used) :: rest) :
    Layout mem' Y.base true (fullRow s (pre ++ ((total mid, .free) :: post))) ∧
      frees Y.base (pre ++ ((total mid, .free) :: post)) =
        insert p (frees Y.base (pre ++ (mid ++ post)) \ frees p mid) ∧
      p ∉ frees Y.base (pre ++ (mid ++ post)) \ frees p mid ∧
      ∀ q ∈ frees Y.base (pre ++ (mid ++ post)) \ frees p mid, chunksize mem' q = chunksize s.mem q ∧
        ∀ k, At Y.base (pre ++ (mid ++ post)) q k .free → At Y.base (pre ++ ((total mid, .free) :: post)) q k .free ∧
          (q + k ≤ p ∨ p + total mid ≤ q) := by
  obtain ⟨k, rest, rfl⟩ := hpost
  obtain ⟨hiff, hnot⟩ := frees_merge h.pos hp hmid
  have hlay := h.layout
  rw [fullRow, List.append_assoc, List.append_assoc] at hlay
  have h16 : 16 ∣ total mid := total_dvd fun b hb => h.layout_bs.dvd b (by simp [hb])
  have hmin : MIN_CHUNK_SIZE ≤ total mid := by
    obtain ⟨b, bs, rfl⟩ := List.exists_cons_of_ne_nil hmid
    have hb := h.chunk (p := Y.base + total pre) (n := b.1) (t := b.2)
      (by rw [at_append]; exact .inr (.inl ⟨rfl, rfl, rfl⟩))
    unfold MIN_CHUNK_SIZE
    rw [total_cons]
    omega
  have hlay' := hlay.merge .free _ hp hpin (.inl rfl) h16 hmin hw.head_eq (fun _ => hw.foot) hw.out (fun _ => hw.next)
    (by simp)
  rw [← List.cons_append, ← List.append_assoc] at hlay'
  have hrow := (layout_append.mp hlay').1
  have hat : ∀ q ∈ frees Y.base (pre ++ (mid ++ (k, Tag.used) :: rest)) \ frees p mid, ∀ k',
      At Y.base (pre ++ (mid ++ (k, Tag.used) :: rest)) q k' .free →
      At Y.base (pre ++ ((total mid, .free) :: (k, Tag.used) :: rest)) q k' .free ∧
        (q + k' ≤ p ∨ p + total mid ≤ q) := by
    intro q hq k' hk'
    rw [at_append, at_append, ← hp] at hk'
    rw [at_append, at_cons, ← hp]
    rcases hk' with hk' | hk' | hk'
    · exact ⟨.inl hk', .inl (hp ▸ hk'.bounds.2)⟩
    · exact absurd ⟨k', hk'⟩ hq.2
    · exact ⟨.inr (.inr hk'), .inr hk'.bounds.1⟩
  refine ⟨hlay', ?_, hnot, fun q hq => ⟨?_, hat q hq⟩⟩
  · ext q
    rw [mem_frees_append, mem_frees_cons, ← hp, Set.mem_insert_iff, ← hiff]
    simp only [and_true]
    tauto
  · obtain ⟨k', hk'⟩ := hq.1
    exact chunksize_congr h.layout_bs hrow hk' (hat q hq k' hk').1

/-- chunks in the middle, with the one that is freed, become one free chunk -/
theorem InvOn.merge_free {p₀ : ℕ} (dv' dvsize' : ℕ) (h : InvOn Y s (pre ++ (mid ++ post)) F) (hp : p = Y.base + total pre)
    (hmid : Middle p mid p₀) (hpin : pinAfter true pre = true) (hw : FreeWritten s.mem mem' p (total mid))
    (hpost : ∃ k rest, post = (k, .used) :: rest) (hF : ∀ q ∈ F, q ∉ frees p mid)
    (hdv : (dv' = 0 ∧ dvsize' = 0) ∨ (At Y.base (pre ++ (mid ++ post)) dv' dvsize' .free ∧ dv' ∉ frees p mid) ∨
      (dv' = p ∧ dvsize' = total mid)) :
    ∃ bs', frees Y.base bs' = insert p (frees Y.base (pre ++ (mid ++ post)) \ frees p mid) ∧
      p ∉ frees Y.base (pre ++ (mid ++ post)) \ frees p mid ∧ At Y.base bs' p (total mid) .free ∧
      FreedOn Y s { s with mem := mem', dv := dv', dvsize := dvsize' } (pre ++ (mid ++ post)) bs' F p₀ := by
  obtain ⟨hlay, hfrees, hnot, hrest⟩ := h.merge hp hmid.ne_nil hpin hw hpost
  have htotal : total (pre ++ ((total mid, Tag.free) :: post)) = total (pre ++ (mid ++ post)) := by simp
  have hnew : At Y.base (pre ++ ((total mid, Tag.free) :: post)) p (total mid) .free := by
    rw [at_append, at_cons, ← hp]
    exact .inr (.inl ⟨rfl, rfl, rfl⟩)
  have hsize := h.size
  have htop := h.top
  refine ⟨pre ++ ((total mid, .free) :: post), hfrees, hnot, hnew,
    ⟨h.base, h.curr, h.fits, h.least, h.footprint, hlay, ?_, ?_, ?_, ?_, ?_, ?_⟩, fun q k => ?_, fun q k hq hne x hx => ?_⟩
  · intro b hb
    have htags := h.tags b
    simp only [List.mem_append, List.mem_cons] at hb htags
    rcases hb with hb | rfl | hb
    · exact htags (.inl hb)
    · exact .inr rfl
    · exact htags (.inr (.inr hb))
  · rw [htotal]
    exact htop
  · rw [fullRow, total_append] at hsize ⊢
    rw [htotal]
    exact hsize
  · rcases hdv with hz | ⟨hat, hnot'⟩ | ⟨rfl, rfl⟩
    · exact .inl hz
    · exact .inr ((hrest dv' ⟨⟨_, hat⟩, hnot'⟩).2 _ hat).1
    · exact .inr hnew
  · rw [hfrees]
    exact fun q hq => .inr ⟨h.free hq, hF q hq⟩
  · have hend := h.topsize_le
    simp only [total_append] at htop
    refine h.binned_frame (p := p) (n := total mid) rfl rfl (by omega) (by omega) hw.out (fun q hq => ?_) fun q hq => ?_
    · exact ((hrest q ⟨h.free hq, hF q hq⟩).2 _ (h.free_size (h.free hq))).2
    · exact (hrest q ⟨h.free hq, hF q hq⟩).1
  · rw [at_append, at_cons, ← hp]
    simp only [reduceCtorEq, and_false, false_or]
    constructor
    · intro hq
      have hat : At Y.base (pre ++ (mid ++ post)) q k .used := by
        rw [at_append, at_append, ← hp]
        exact hq.imp_right .inr
      refine ⟨hat, (hmid.live h.pos hp hat).mpr fun hk => ?_⟩
      have hb' := hk.bounds
      have hkpos := (h.chunk hat).2.2.1
      rcases hq with hq | hq
      · have := hq.bounds
        omega
      · have := hq.bounds
        omega
    · rintro ⟨hat, hne⟩
      have hnot := (hmid.live h.pos hp hat).mp hne
      rw [at_append, at_append, ← hp] at hat
      rcases hat with hq | hq | hq
      · exact .inl hq
      · exact absurd hq hnot
      · exact .inr hq
  · exact hw.out x (payload_merge hp hq ((hmid.live h.pos hp hq).mp hne) hx)

/-- chunks at the end, with the one that is freed, become part of the top chunk -/
theorem InvOn.merge_top {p₀ : ℕ} (dv' dvsize' : ℕ) (h : InvOn Y s (pre ++ mid) F) (hp : p = Y.base + total pre)
    (hmid : Middle p mid p₀) (hpin : pinAfter true pre = true) (hF : ∀ q ∈ F, q ∉ frees p mid)
    (hdv : (dv' = 0 ∧ dvsize' = 0) ∨ (At Y.base (pre ++ mid) dv' dvsize' .free ∧ dv' ∉ frees p mid)) :
    frees Y.base pre = frees Y.base (pre ++ mid) \ frees p mid ∧
      FreedOn Y s { s with topsize := s.topsize + total mid, top := p, dv := dv', dvsize := dvsize',
                           mem := set_head s.mem p ⟨s.topsize + total mid, true, false⟩ } (pre ++ mid) pre F p₀ := by
  have hnil : pre ++ mid = pre ++ (mid ++ []) := by rw [List.append_nil]
  have hpos := h.pos
  have h16 : 16 ∣ total mid := total_dvd fun b hb => h.layout_bs.dvd b (by simp [hb])
  have h16' : 16 ∣ s.topsize + total mid := dvd_add h.top_ok.2.1 h16
  have h8 : 8 ∣ s.topsize + total mid := (by decide : 8 ∣ 16).trans h16'
  have htop := h.top
  have htop16 := h.top_ok
  have hlay := h.layout
  rw [fullRow, show pre ++ mid ++ [(s.topsize, Tag.top), (TOP_FOOT_SIZE, Tag.foot)] =
    pre ++ ((mid ++ [(s.topsize, .top)]) ++ [(TOP_FOOT_SIZE, .foot)]) by simp] at hlay
  have hend : total (mid ++ [(s.topsize, Tag.top)]) = s.topsize + total mid := by simp [Nat.add_comm]
  have hlay' := hlay.merge .top (set_head s.mem p ⟨s.topsize + total mid, true, false⟩) hp hpin (.inr rfl)
    (by rw [hend]; exact h16') (by rw [hend]; exact htop16.2.2.trans (Nat.le_add_right ..))
    (by rw [head_set_head h8, if_pos rfl, hend]) (by simp)
    (fun x hx => set_head_of_ne (by rw [hend] at hx; omega))
    (fun _ => by
      have hfoot := (layout_append.mp h.layout).2.2.1.head_eq
      rw [head_set_head h8, if_neg (by rw [hend]; omega), hend]
      have haddr : p + (s.topsize + total mid) = Y.base + total (pre ++ mid) + s.topsize := by
        rw [total_append]
        omega
      rw [haddr, hfoot]
      rfl)
    (by simp)
  rw [hend] at hlay'
  have hrow := (layout_append.mp hlay').1
  have hpos' : ∀ b ∈ pre ++ (mid ++ []), 0 < b.1 := by rwa [← hnil]
  obtain ⟨hiff, -⟩ := frees_merge hpos' hp hmid.ne_nil
  rw [← hnil] at hiff
  have hfrees : frees Y.base pre = frees Y.base (pre ++ mid) \ frees p mid := by
    ext q
    rw [← hiff]
    simp
  have hat : ∀ q k, At Y.base (pre ++ mid) q k .free → q ∉ frees p mid → At Y.base pre q k .free := by
    intro q k hk hnot
    rw [at_append, ← hp] at hk
    exact hk.resolve_right fun hk' => hnot ⟨k, hk'⟩
  refine ⟨hfrees, ⟨h.base, h.curr, h.fits, h.least, h.footprint, hlay', ?_, hp, ?_, ?_, ?_, ?_⟩, fun q k => ?_,
    fun q k hq hne x hx => ?_⟩
  · exact fun b hb => h.tags b (List.mem_append_left _ hb)
  · have hsize := h.size
    simp only [fullRow, total_append, total_cons, total_nil] at hsize ⊢
    omega
  · refine hdv.imp_right ?_
    rintro ⟨h1, h2⟩
    exact hat _ _ h1 h2
  · rw [hfrees]
    exact fun q hq => ⟨h.free hq, hF q hq⟩
  · have hend := h.topsize_le
    simp only [total_append] at htop
    refine h.binned_frame (p := p) (n := 0) rfl rfl (by omega) (by omega) (fun x hx => set_head_of_ne (by omega))
      (fun q hq => .inl ?_) fun q hq => ?_
    · exact hp ▸ (hat q _ (h.free_size (h.free hq)) (hF q hq)).bounds.2
    · obtain ⟨k, hk⟩ := h.free hq
      exact chunksize_congr h.layout_bs hrow hk (hat q k hk (hF q hq))
  · constructor
    · intro hq
      have hat' : At Y.base (pre ++ mid) q k .used := (at_append ..).mpr (.inl hq)
      have hkpos := (h.chunk hat').2.2.1
      refine ⟨hat', ?_⟩
      rw [hnil] at hat' hpos
      refine (hmid.live hpos hp hat').mpr fun hk => ?_
      have h1 := hk.bounds
      have h2 := hq.bounds
      omega
    · rintro ⟨hq, hne⟩
      have hnot : ¬ At p mid q k .used := fun hk => hne (hmid.one q k hk)
      rw [at_append, ← hp] at hq
      exact hq.resolve_right hnot
  · have hnot : ¬ At p mid q k .used := fun hk => hne (hmid.one q k hk)
    rw [hnil] at hq
    have := payload_merge hp hq hnot hx
    rw [← hnil] at hq
    have hend' := (h.chunk hq).2.2.2.2
    have hx2 := hx.2
    simp only
    rw [set_head_of_ne]
    rcases this with hlt | hlt
    · omega
    · rw [htop, total_append] at hend'
      omega

end

/-! ## Forward -/

section
variable {Y : Sys} {s : MState} {bs pre mid post : List (ℕ × Tag)} {p p₀ n k x : ℕ} {mem mem' : Mem} {c : Caller}
  {F : Set ℕ}

theorem freeWritten_with_pinuse (mem : Mem) (hp : 16 ∣ p) (hn : 16 ∣ n) (hpos : 0 < n) :
    FreeWritten mem (set_free_with_pinuse mem p n (p + n)) p n := by
  unfold set_free_with_pinuse
  refine ⟨?_, set_free_chunk_foot, fun x hx => ?_, ?_⟩
  · rw [head_set_free_chunk hn hp hp, if_pos rfl]
  · rw [set_free_chunk_of_ne (by omega) (by omega), clear_pinuse_of_ne (by omega)]
  · rw [head_set_free_chunk hn hp (dvd_add hp hn), if_neg (by omega), head_clear_pinuse, if_pos rfl]

/-- the bit is 0 already if the last of the chunks was free -/
theorem freeWritten_free (mem : Mem) (hp : 16 ∣ p) (hn : 16 ∣ n) (hpos : 0 < n) (hpin : (head mem (p + n)).pinuse = false) :
    FreeWritten mem (set_size_and_pinuse_of_free_chunk mem p n) p n := by
  refine ⟨?_, set_free_chunk_foot, fun x hx => set_free_chunk_of_ne (by omega) (by omega), ?_⟩
  · rw [head_set_free_chunk hn hp hp, if_pos rfl]
  · rw [head_set_free_chunk hn hp (dvd_add hp hn), if_neg (by omega), ← hpin]

/-- the chunk behind chunks of the row, or the top chunk -/
theorem InvOn.next_head (mid post : List (ℕ × Tag)) (h : InvOn Y s (pre ++ (mid ++ post)) F) (hp : p = Y.base + total pre) :
    head s.mem (p + total mid) = match post with
      | [] => ⟨s.topsize, pinAfter (pinAfter true pre) mid, false⟩
      | b :: _ => ⟨b.1, pinAfter (pinAfter true pre) mid, b.2 = .used⟩ := by
  have hlay := h.layout
  rw [fullRow, List.append_assoc, List.append_assoc] at hlay
  subst hp
  have hnext := (layout_append.mp (layout_append.mp hlay).2).2
  cases post with
  | nil => exact hnext.1.head_eq
  | cons b rest => exact hnext.1.head_eq

theorem pinAfter_append (pin : Bool) (xs ys : List (ℕ × Tag)) :
    pinAfter pin (xs ++ ys) = pinAfter (pinAfter pin xs) ys := by
  induction xs generalizing pin with
  | nil => rfl
  | cons b bs ih => exact ih _

theorem frees_snoc : frees p (mid ++ [(k, .free)]) = insert (p + total mid) (frees p mid) := by
  ext q
  simp [mem_frees_append, mem_frees_cons, or_comm]

/-- the chunk goes to its bin -/
theorem InvOn.bin_chunk (h : InvOn Y s (pre ++ (mid ++ post)) F) (hp : p = Y.base + total pre) (hmid : Middle p mid p₀)
    (hpin : pinAfter true pre = true) (hw : FreeWritten s.mem mem' p (total mid))
    (hpost : ∃ k rest, post = (k, .used) :: rest)
    (hpdv : p ≠ s.dv) (hdv : s.dv ∉ frees p mid)
    (hF : F = (frees Y.base (pre ++ (mid ++ post)) \ frees p mid) \ {s.dv}) :
    ∃ s' bs', Heap.bin_chunk Y c { s with mem := mem' } p (total mid) = .ok s' ∧
      Freed Y s s' (pre ++ (mid ++ post)) bs' p₀ := by
  obtain ⟨bs', hfrees, hnot, hat, hfreed⟩ := h.merge_free s.dv s.dvsize hp hmid hpin hw hpost
    (by rw [hF]; exact fun q hq => hq.1.2) (h.dv.imp_right fun hat => .inl ⟨hat, hdv⟩)
  obtain ⟨s₁, hins, hr, hf⟩ := hfreed.enter hat (by rw [hF]; exact fun hmem => hnot hmem.1)
  have hall : Freed Y s s₁ (pre ++ (mid ++ post)) bs' p₀ := by
    refine hf.done ?_
    rw [hr.dv, hfrees, hF, Set.insert_sdiff_of_notMem _ (show p ∉ ({s.dv} : Set ℕ) from hpdv)]
  unfold Heap.bin_chunk
  rw [hins]
  simp only [bind, Except.bind]
  split_ifs
  · exact ⟨_, bs', rfl, hall.set_release_checks _⟩
  · exact ⟨_, bs', rfl, hall.set_release_checks _⟩
  · exact ⟨_, bs', rfl, hall⟩

/-- a merged chunk is in the dv, and the bins are as they are -/
theorem InvOn.merge_dv (dvsize' : ℕ) (h : InvOn Y s (pre ++ (mid ++ post)) F) (hp : p = Y.base + total pre)
    (hmid : Middle p mid p₀) (hpin : pinAfter true pre = true) (hw : FreeWritten s.mem mem' p (total mid))
    (hpost : ∃ k rest, post = (k, .used) :: rest) (hsize : dvsize' = total mid)
    (hF : F = frees Y.base (pre ++ (mid ++ post)) \ frees p mid) :
    ∃ bs', Freed Y s { s with mem := mem', dv := p, dvsize := dvsize' } (pre ++ (mid ++ post)) bs' p₀ := by
  obtain ⟨bs', hfrees, hnot, -, hfreed⟩ := h.merge_free p dvsize' hp hmid hpin hw hpost
    (by rw [hF]; exact fun q hq => hq.2) (.inr (.inr ⟨rfl, hsize⟩))
  refine ⟨bs', hfreed.done ?_⟩
  rw [hfrees, hF, Set.insert_sdiff_self_of_notMem hnot]

/-- the chunk and a free chunk behind it -/
theorem Middle.snoc (h : Middle p mid p₀) : Middle p (mid ++ [(k, .free)]) p₀ := by
  obtain ⟨n, hn⟩ := h.isUsed
  refine ⟨fun q j hq => ?_, n, (at_append ..).mpr (.inl hn)⟩
  rw [at_append] at hq
  rcases hq with hq | hq
  · exact h.one q j hq
  · simp at hq

/-- the top chunk gets larger, and may be trimmed -/
theorem Freed.trim {s₁ : MState} {bs₁ : List (ℕ × Tag)} (h : Freed Y s s₁ bs bs₁ p₀) :
    Freed Y s (sys_trim Y s₁ 0) bs bs₁ p₀ := by
  obtain ⟨hinv, -, hmem, -⟩ := sys_trim_inv 0 h.inv
  refine ⟨hinv, h.live, fun q k hq hne x hx => ?_⟩
  have hat := (h.live q k).mpr ⟨hq, hne⟩
  rw [hmem x (hx.2.trans (h.inv.chunk hat).2.2.2.2), h.data q k hq hne x hx]

/-- a chunk in use comes behind a free one -/
theorem InvOn.next_used (h : InvOn Y s (pre ++ (k, .free) :: post) F) : ∃ j rest, post = (j, .used) :: rest := by
  have hlay := h.layout
  rw [fullRow, List.append_assoc, List.cons_append] at hlay
  have hused := hlay.next_used
  cases post with
  | nil =>
    have := hused (s.topsize, Tag.top) rfl
    simp at this
  | cons b rest =>
    obtain ⟨j, t⟩ := b
    have htag := h.tags (j, t) (by simp)
    have hu := hused (j, t) rfl
    dsimp only at htag hu
    refine ⟨j, rest, ?_⟩
    rcases hu with rfl | rfl
    · rfl
    · simp at htag

/-- what is checked of the chunk behind -/
theorem InvOn.forward_ok (c : Caller) (h : InvOn Y s (pre ++ (mid ++ post)) F) (hp : p = Y.base + total pre)
    (hlast : pinAfter (pinAfter true pre) mid = true) (hpos : 0 < total mid) :
    (match c with
      | .free => p < p + total mid && pinuse s.mem (p + total mid)
      | .dispose => ok_address s (p + total mid)) = true := by
  cases c with
  | free =>
    have hpn : pinuse s.mem (p + total mid) = true := by
      rw [pinuse, h.next_head _ _ hp]
      cases post <;> exact hlast
    simp [hpn, hpos]
  | dispose =>
    refine decide_eq_true ?_
    rw [h.least, h.base, hp]
    omega

/-- chunks of the row that are to become one chunk: among them one that was in use, at p₀, and perhaps a free one, at p;
the bins hold the free ones of the others -/
structure Gathered (Y : Sys) (s : MState) (pre mid post : List (ℕ × Tag)) (F : Set ℕ) (p p₀ : ℕ) : Prop where
  row : InvOn Y s (pre ++ (mid ++ post)) F
  start : p = Y.base + total pre
  middle : Middle p mid p₀
  pinned : pinAfter true pre = true
  last : pinAfter (pinAfter true pre) mid = true
  sub : ∀ q ∈ frees p mid, q = p
  dv : s.dv ∈ frees p mid ↔ p = s.dv
  bins : F = (frees Y.base (pre ++ (mid ++ post)) \ frees p mid) \ {s.dv}

section
variable {rest : List (ℕ × Tag)}

theorem Gathered.pos (G : Gathered Y s pre mid post F p p₀) : 0 < total mid := by
  obtain ⟨j, hj⟩ := G.middle.isUsed
  have hat : At Y.base (pre ++ (mid ++ post)) p₀ j .used := by
    rw [at_append, at_append, ← G.start]
    exact .inr (.inl hj)
  have h1 := G.row.pos (j, Tag.used) hat.mem
  have h2 := hj.bounds
  dsimp only at h1
  omega

theorem Gathered.dvd (G : Gathered Y s pre mid post F p p₀) : 16 ∣ p ∧ 16 ∣ total mid :=
  ⟨G.start ▸ dvd_add Y.base_dvd (total_dvd fun b hb => G.row.layout_bs.dvd b (by simp [hb])),
    total_dvd fun b hb => G.row.layout_bs.dvd b (by simp [hb])⟩

/-- the top chunk is next -/
theorem Gathered.forward_top (G : Gathered Y s pre mid [] F p p₀) :
    ∃ s' bs', forward Y c s p (total mid) (p + total mid) = .ok s' ∧ Freed Y s s' (pre ++ (mid ++ [])) bs' p₀ := by
  have hok := G.row.forward_ok c G.start G.last G.pos
  have hci : cinuse s.mem (p + total mid) = false := by rw [cinuse, G.row.next_head _ _ G.start]
  have heq : p + total mid = s.top := by
    rw [G.row.top, total_append, total_append, total_nil, G.start]
    omega
  obtain ⟨h, hp, hmid, hpin, -, -, hdv, hF⟩ := G
  unfold forward
  simp only [hok, if_true]
  rw [List.append_nil] at *
  rw [if_pos hci, if_pos heq]
  obtain ⟨hfrees, hfreed⟩ := h.merge_top (if p = s.dv then 0 else s.dv) (if p = s.dv then 0 else s.dvsize) hp hmid hpin
    (by rw [hF]; exact fun q hq => hq.1.2) (by
      split_ifs with hpdv
      · exact .inl ⟨rfl, rfl⟩
      · exact h.dv.imp_right fun hat => ⟨hat, fun hmem => hpdv (hdv.mp hmem)⟩)
  have hall := hfreed.done (by
    dsimp only
    rw [hfrees, hF]
    split_ifs with hpdv
    · rw [Set.sdiff_singleton_eq_self (a := 0) fun h0 => h.zero_notMem h0.1,
        Set.sdiff_singleton_eq_self fun h0 => h0.2 (hdv.mpr hpdv)]
    · rfl)
  by_cases htrim : c = .free ∧ s.trim_check < s.topsize + total mid
  · rw [if_pos htrim]
    exact ⟨_, pre, rfl, hall.trim⟩
  · rw [if_neg htrim]
    exact ⟨_, pre, rfl, hall⟩

/-- a chunk in use is next -/
theorem Gathered.forward_used (G : Gathered Y s pre mid ((k, .used) :: rest) F p p₀) (hpdv : p ≠ s.dv) :
    ∃ s' bs', forward Y c s p (total mid) (p + total mid) = .ok s' ∧
      Freed Y s s' (pre ++ (mid ++ (k, .used) :: rest)) bs' p₀ := by
  have hok := G.row.forward_ok c G.start G.last G.pos
  have hci : ¬ cinuse s.mem (p + total mid) = false := by
    rw [cinuse, G.row.next_head _ _ G.start]
    simp
  unfold forward
  simp only [hok, if_true]
  rw [if_neg hci]
  exact G.row.bin_chunk G.start G.middle G.pinned (freeWritten_with_pinuse s.mem G.dvd.1 G.dvd.2 G.pos) ⟨k, rest, rfl⟩
    hpdv (fun hmem => hpdv (G.dv.mp hmem)) G.bins

/-! ### A free chunk is next -/

theorem total_snoc : total (mid ++ [(k, Tag.free)]) = total mid + k := by simp

theorem sdiff_frees_snoc (A : Set ℕ) : A \ frees p (mid ++ [(k, .free)]) = (A \ frees p mid) \ {p + total mid} := by
  rw [frees_snoc, Set.insert_eq, Set.union_comm, Set.sdiff_sdiff]

theorem Gathered.next_at (G : Gathered Y s pre mid ((k, .free) :: rest) F p p₀) :
    At Y.base (pre ++ (mid ++ (k, .free) :: rest)) (p + total mid) k .free := by
  rw [at_append, at_append, at_cons, G.start]
  exact .inr (.inr (.inl ⟨rfl, rfl, rfl⟩))

/-- and behind it comes one in use -/
theorem Gathered.next_used (G : Gathered Y s pre mid ((k, .free) :: rest) F p p₀) :
    ∃ j rest', rest = (j, .used) :: rest' := by
  have h := G.row
  rw [← List.append_assoc] at h
  exact h.next_used

/-- the row with the free chunk gathered as well -/
theorem snoc_row : pre ++ (mid ++ (k, Tag.free) :: rest) = pre ++ ((mid ++ [(k, .free)]) ++ rest) := by simp

/-- all of them are written as one free chunk, whatever has left its bin -/
theorem Gathered.written {s₁ : MState} {F₁ : Set ℕ} (G : Gathered Y s pre mid ((k, .free) :: rest) F p p₀)
    (h₁ : InvOn Y s₁ (pre ++ ((mid ++ [(k, .free)]) ++ rest)) F₁) :
    FreeWritten s₁.mem (set_size_and_pinuse_of_free_chunk s₁.mem p (total (mid ++ [(k, .free)]))) p
      (total (mid ++ [(k, .free)])) := by
  have hpos := G.pos
  have hdvd : 16 ∣ total (mid ++ [(k, Tag.free)]) := total_snoc ▸ dvd_add G.dvd.2 (G.row.chunk G.next_at).2.1
  refine freeWritten_free s₁.mem G.dvd.1 hdvd (by rw [total_snoc]; omega) ?_
  rw [h₁.next_head _ _ G.start]
  obtain ⟨j, rest', rfl⟩ := G.next_used
  show pinAfter (pinAfter true pre) (mid ++ [(k, Tag.free)]) = false
  rw [pinAfter_append]
  rfl

/-- the dv is next -/
theorem Gathered.merge_next_dv (G : Gathered Y s pre mid ((k, .free) :: rest) F p p₀) (hndv : p + total mid = s.dv) :
    ∃ bs', Freed Y s { s with mem := set_size_and_pinuse_of_free_chunk s.mem p (s.dvsize + total mid),
                              dv := p, dvsize := s.dvsize + total mid } (pre ++ (mid ++ (k, .free) :: rest)) bs' p₀ := by
  have hdvsize : s.dvsize = k := by
    have hat := G.row.dv_at (fun hz => by
      have := G.row.dv_zero hz
      have := G.pos
      omega)
    rw [← hndv] at hat
    exact (hat.unique G.row.pos G.next_at).1
  have h := G.row
  have hF := G.bins
  rw [snoc_row] at h hF ⊢
  have heq : total (mid ++ [(k, Tag.free)]) = s.dvsize + total mid := by
    rw [total_snoc]
    omega
  obtain ⟨bs', hfreed⟩ := h.merge_dv (s.dvsize + total mid) G.start G.middle.snoc G.pinned (G.written h) G.next_used
    heq.symm (by rw [sdiff_frees_snoc, hndv, hF])
  rw [heq] at hfreed
  exact ⟨bs', hfreed⟩

/-- a free chunk is next -/
theorem Gathered.forward_free (G : Gathered Y s pre mid ((k, .free) :: rest) F p p₀) :
    ∃ s' bs', forward Y c s p (total mid) (p + total mid) = .ok s' ∧
      Freed Y s s' (pre ++ (mid ++ (k, .free) :: rest)) bs' p₀ := by
  have hpos := G.pos
  have hnext := G.next_at
  have hok := G.row.forward_ok c G.start G.last hpos
  have hci : cinuse s.mem (p + total mid) = false := by
    rw [cinuse, G.row.next_head _ _ G.start]
    rfl
  have hntop : p + total mid ≠ s.top := by
    have := (G.row.chunk hnext).2.2
    omega
  unfold forward
  simp only [hok, if_true]
  rw [if_pos hci, if_neg hntop]
  by_cases hndv : p + total mid = s.dv
  · rw [if_pos hndv]
    obtain ⟨bs', hfreed⟩ := G.merge_next_dv hndv
    exact ⟨_, bs', rfl, hfreed⟩
  · -- the chunk behind leaves its bin
    rw [if_neg hndv]
    have hnot : p + total mid ∉ frees p mid := fun hmem => by
      have := G.sub _ hmem
      omega
    have hfree : p + total mid ∈ F := G.bins ▸ ⟨⟨⟨k, hnext⟩, hnot⟩, hndv⟩
    obtain ⟨s₁, hun, hr, h₁⟩ := G.row.unlink hfree (G.row.chunksize_eq hnext)
    simp only [G.row.chunksize_eq hnext, hun, bind, Except.bind]
    have h := G.row
    have hF := G.bins
    rw [snoc_row] at h h₁ hF ⊢
    have hF₁ : F \ {p + total mid} =
        (frees Y.base (pre ++ ((mid ++ [(k, Tag.free)]) ++ rest)) \ frees p (mid ++ [(k, .free)])) \ {s₁.dv} := by
      rw [sdiff_frees_snoc, sdiff_right_comm, hr.dv, hF]
    rw [← total_snoc]
    by_cases hpdv : p = s₁.dv
    · -- the dv is before
      rw [if_pos hpdv]
      obtain ⟨bs', hfreed⟩ := h₁.merge_dv (total (mid ++ [(k, .free)])) G.start G.middle.snoc G.pinned (G.written h₁)
        G.next_used rfl (by
          rw [hF₁, hr.dv]
          refine Set.sdiff_singleton_eq_self fun h0 => h0.2 ?_
          rw [frees_snoc]
          exact Set.mem_insert_of_mem _ (G.dv.mpr (hpdv.trans hr.dv)))
      refine ⟨_, bs', rfl, .of_relinked h hr ?_⟩
      subst hpdv
      exact hfreed
    · rw [if_neg hpdv]
      have hdv' : s₁.dv ∉ frees p (mid ++ [(k, .free)]) := by
        rw [hr.dv, frees_snoc]
        rintro (heq | hmem)
        · exact hndv heq.symm
        · exact hpdv ((G.dv.mp hmem).trans hr.dv.symm)
      obtain ⟨s', bs', hbin, hfreed⟩ := h₁.bin_chunk (c := c) G.start G.middle.snoc G.pinned (G.written h₁) G.next_used
        hpdv hdv' hF₁
      exact ⟨s', bs', hbin, .of_relinked h hr hfreed⟩

/-- **Consolidating forward.** -/
theorem Gathered.forward_spec (G : Gathered Y s pre mid post F p p₀)
    (hearly : p = s.dv → ∀ k rest, post ≠ (k, .used) :: rest) :
    ∃ s' bs', forward Y c s p (total mid) (p + total mid) = .ok s' ∧ Freed Y s s' (pre ++ (mid ++ post)) bs' p₀ := by
  cases post with
  | nil => exact G.forward_top
  | cons b rest =>
    obtain ⟨k, t⟩ := b
    rcases G.row.tags (k, t) (by simp) with ht | ht
    · dsimp only at ht
      subst ht
      exact G.forward_used fun heq => hearly heq k rest rfl
    · dsimp only at ht
      subst ht
      exact G.forward_free

end

end

/-! ## Backward -/

section
variable {Y : Sys} {s : MState} {bs pre post : List (ℕ × Tag)} {p n m k : ℕ} {c : Caller} {F : Set ℕ}

/-- a row whose last chunk is not in use -/
theorem eq_snoc_of_pinAfter {xs : List (ℕ × Tag)} (h : pinAfter true xs = false) :
    ∃ pre m t, xs = pre ++ [(m, t)] ∧ t ≠ .used := by
  rcases List.eq_nil_or_concat xs with rfl | ⟨pre, ⟨m, t⟩, rfl⟩
  · cases h
  · rw [List.concat_eq_append, pinAfter_append] at h
    exact ⟨pre, m, t, List.concat_eq_append, of_decide_eq_false h⟩

theorem InvOn.used_ne_dv (h : InvOn Y s bs F) (hp : At Y.base bs p n .used) : p ≠ s.dv := by
  rintro rfl
  rcases h.dv with ⟨hz, -⟩ | hat
  · have := h.chunk hp
    have := Y.base_pos'
    omega
  · cases (hat.unique h.pos hp).2

theorem frees_pair : frees p [(m, Tag.free), (n, Tag.used)] = {p} := by
  ext q
  simp [mem_frees_cons]

/-- the chunk before is in use -/
theorem consolidate_pinned (h : Inv Y s (pre ++ ([(n, .used)] ++ post))) (hp : p = Y.base + total pre)
    (hpin : pinAfter true pre = true) :
    ∃ s' bs', consolidate Y c s p n = .ok s' ∧ Freed Y s s' (pre ++ ([(n, .used)] ++ post)) bs' p := by
  have hhead := h.next_head [] _ hp
  have hndv := h.used_ne_dv (p := p) (n := n) (by
    rw [at_append, ← hp]
    exact .inr (.inl ⟨rfl, rfl, rfl⟩))
  have hempty : frees p [(n, Tag.used)] = ∅ := by
    ext q
    simp [mem_frees_cons]
  have G : Gathered Y s pre [(n, .used)] post (frees Y.base (pre ++ ([(n, .used)] ++ post)) \ {s.dv}) p p :=
    ⟨h, hp, ⟨fun q k hq => (by simpa using hq : q = p ∧ k = n).1, n, by simp⟩, hpin, rfl, by simp [hempty],
      by simp [hempty, hndv], by rw [hempty, Set.sdiff_empty]⟩
  have hforward := G.forward_spec (c := c) fun heq => absurd heq hndv
  simp only [total_cons, total_nil, Nat.add_zero] at hforward hhead
  have hpi : pinuse s.mem p = true := by
    rw [pinuse, hhead]
    exact hpin
  unfold consolidate
  simp only
  rw [if_pos hpi]
  exact hforward

/-- the chunk before, which is free, and the chunk -/
theorem gathered_pair (h : InvOn Y s (pre ++ ([(m, .free), (n, .used)] ++ post)) F) (hpin : pinAfter true pre = true)
    (hF : F = (frees Y.base (pre ++ ([(m, .free), (n, .used)] ++ post)) \ {Y.base + total pre}) \ {s.dv}) :
    Gathered Y s pre [(m, .free), (n, .used)] post F (Y.base + total pre) (Y.base + total pre + m) := by
  have hat : At Y.base (pre ++ ([(m, Tag.free), (n, Tag.used)] ++ post)) (Y.base + total pre) m .free := by
    rw [at_append]
    exact .inr (.inl ⟨rfl, rfl, rfl⟩)
  have hmpos := (h.chunk hat).2.2.1
  have hmid : Middle (Y.base + total pre) [(m, Tag.free), (n, Tag.used)] (Y.base + total pre + m) := by
    refine ⟨fun q k hq => ?_, n, ?_⟩
    · simp only [at_cons, reduceCtorEq, and_false, false_or, at_nil, or_false, and_true] at hq
      omega
    · simp only [at_cons, reduceCtorEq, and_false, false_or, at_nil, or_false, and_true]
  exact ⟨h, rfl, hmid, hpin, rfl, by simp [frees_pair], by rw [frees_pair, Set.mem_singleton_iff]; exact eq_comm,
    by rw [frees_pair, hF]⟩

/-- the dv is before, and a chunk in use comes behind -/
theorem merge_prev_dv (h : Inv Y s (pre ++ ([(m, .free), (n, .used)] ++ (k, .used) :: post)))
    (hpin : pinAfter true pre = true) (hdv : Y.base + total pre = s.dv) :
    ∃ bs', Freed Y s { s with mem := set_free_with_pinuse s.mem (Y.base + total pre) (n + m)
                                (Y.base + total pre + (n + m)), dvsize := n + m }
      (pre ++ ([(m, .free), (n, .used)] ++ (k, .used) :: post)) bs' (Y.base + total pre + m) := by
  have G := gathered_pair h hpin (by rw [hdv, sdiff_idem])
  have htotal : total [(m, Tag.free), (n, Tag.used)] = n + m := by simp [Nat.add_comm]
  have hw := freeWritten_with_pinuse s.mem G.dvd.1 G.dvd.2 G.pos
  obtain ⟨bs', hfreed⟩ := h.merge_dv (n + m) rfl G.middle hpin hw ⟨k, post, rfl⟩ htotal.symm
    (by rw [frees_pair, hdv])
  rw [htotal, hdv] at hfreed
  rw [hdv]
  exact ⟨bs', hfreed⟩

/-- the chunk before is free -/
theorem consolidate_prev (h : Inv Y s (pre ++ ([(m, .free), (n, .used)] ++ post))) (hp : p = Y.base + total pre + m) :
    ∃ s' bs', consolidate Y c s p n = .ok s' ∧ Freed Y s s' (pre ++ ([(m, .free), (n, .used)] ++ post)) bs' p := by
  have hprev := (layout_append.mp h.layout_bs).2.1
  have hpin : pinAfter true pre = true := hprev.pinned (.inl rfl)
  have hhead := h.next_head [(m, .free)] ((n, .used) :: post) rfl
  have hpf : prev_foot s.mem p = m := hp ▸ hprev.foot rfl
  have hat : At Y.base (pre ++ ([(m, Tag.free), (n, Tag.used)] ++ post)) (Y.base + total pre) m .free := by
    rw [at_append]
    exact .inr (.inl ⟨rfl, rfl, rfl⟩)
  have hsub : sub p (prev_foot s.mem p) = Y.base + total pre := by
    have hbound := Y.bound'
    have htop := h.topsize_le
    have hchunk := h.chunk hat
    rw [hpf, sub_of_le (by omega) (by omega)]
    omega
  have htotal : total [(m, Tag.free), (n, Tag.used)] = n + m := by simp [Nat.add_comm]
  have hnext : Y.base + total pre + (n + m) = p + n := by omega
  simp only [total_cons, total_nil, Nat.add_zero, ← hp] at hhead
  have hpi : ¬ pinuse s.mem p = true := by
    rw [pinuse, hhead]
    simp [pinAfter]
  have hmm : ¬ is_mmapped s.mem p = true := by
    rw [is_mmapped, pinuse, cinuse, hhead]
    simp
  have hok : ok_address s (Y.base + total pre) = true := decide_eq_true (h.least_le _ ⟨m, hat⟩)
  unfold consolidate
  simp only
  rw [if_neg hpi, if_neg hmm, hsub, hpf, if_pos hok]
  by_cases hdv : Y.base + total pre ≠ s.dv
  · -- it leaves its bin
    rw [if_pos hdv]
    obtain ⟨s₁, hun, hr, h₁⟩ := h.unlink (p := Y.base + total pre) ⟨⟨m, hat⟩, hdv⟩ (h.chunksize_eq hat)
    have G := gathered_pair h₁ hpin (by rw [sdiff_right_comm, hr.dv])
    obtain ⟨s', bs', hforward, hfreed⟩ := G.forward_spec (c := c) fun heq => absurd (heq.trans hr.dv) hdv
    rw [htotal, hnext] at hforward
    simp only [hun, bind, Except.bind]
    exact ⟨s', bs', hforward, hp ▸ .of_relinked h hr hfreed⟩
  · -- the dv is before it
    rw [if_neg hdv]
    have hdv' := not_not.mp hdv
    have hdvsize : s.dvsize = m := by
      have hdvat := h.dv_at fun hz => by
        have := h.dv_zero hz
        have := Y.base_pos'
        omega
      rw [← hdv'] at hdvat
      exact (hdvat.unique h.pos hat).1
    have hnh := h.next_head _ _ rfl
    rw [htotal, hnext] at hnh
    by_cases hused : pinuse s.mem (p + n) = true ∧ cinuse s.mem (p + n) = true
    · rw [if_pos hused]
      rw [cinuse, hnh] at hused
      cases post with
      | nil => simp at hused
      | cons b rest =>
        obtain ⟨k, t⟩ := b
        obtain rfl : t = .used := by simpa using hused.2
        obtain ⟨bs', hfreed⟩ := merge_prev_dv h hpin hdv'
        rw [← hp, hnext] at hfreed
        exact ⟨_, bs', rfl, hfreed⟩
    · rw [if_neg hused]
      have G := gathered_pair h hpin (by rw [hdv', sdiff_idem])
      obtain ⟨s', bs', hforward, hfreed⟩ := G.forward_spec (c := c) fun _ k rest heq => by
        subst heq
        refine hused ?_
        rw [pinuse, cinuse, hnh]
        simp [pinAfter]
      rw [htotal, hnext] at hforward
      exact ⟨s', bs', hforward, hp ▸ hfreed⟩

/-- **Consolidation.** A chunk in use is merged with its free neighbours. -/
theorem consolidate_spec (h : Inv Y s bs) (hp : At Y.base bs p n .used) :
    ∃ s' bs', consolidate Y c s p n = .ok s' ∧ Freed Y s s' bs bs' p := by
  obtain ⟨pre, post, rfl, hpre⟩ := hp.split
  cases hpin : pinAfter true pre with
  | true => exact consolidate_pinned h hpre hpin
  | false =>
    obtain ⟨pre, m, t, rfl, ht⟩ := eq_snoc_of_pinAfter hpin
    obtain rfl : t = .free := (h.tags (m, t) (by simp)).resolve_left ht
    have hbs : pre ++ [(m, Tag.free)] ++ (n, Tag.used) :: post = pre ++ ([(m, .free), (n, .used)] ++ post) := by simp
    rw [hbs] at h ⊢
    refine consolidate_prev h ?_
    rw [hpre, total_append, total_cons, total_nil]
    omega

/-! ## dlfree -/

/-- **Freeing.** A chunk in use can be freed, and nothing changes for the users of the others. -/
theorem dlfree_spec (h : Inv Y s bs) (hp : At Y.base bs p n .used) :
    ∃ s' bs', dlfree Y s (chunk2mem p) = .ok s' ∧ Freed Y s s' bs bs' p := by
  have hchunk := h.chunk hp
  have hsize := h.chunksize_eq hp
  obtain ⟨pin, hok⟩ := h.layout_bs.at hp
  have hne : chunk2mem p ≠ NULL := by
    unfold chunk2mem NULL TWO_SIZE_T_SIZES SIZE_T_SIZE
    omega
  have hmem : mem2chunk (chunk2mem p) = p := Nat.add_sub_cancel ..
  have hcheck : ok_address s p = true ∧ is_inuse s.mem p = true := by
    refine ⟨decide_eq_true ?_, ?_⟩
    · rw [h.least, h.base]
      exact hchunk.2.2.2.1
    · rw [is_inuse, cinuse, hok.head_eq]
      simp
  simp only [dlfree, if_pos hne, hmem, if_pos hcheck, hsize]
  exact consolidate_spec h hp

theorem dispose_chunk_spec (h : Inv Y s bs) (hp : At Y.base bs p n .used) :
    ∃ s' bs', dispose_chunk Y s p n = .ok s' ∧ Freed Y s s' bs bs' p :=
  consolidate_spec h hp

end

end SandiaShmem.Heap
