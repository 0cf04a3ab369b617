/-
Chunks in use that change their size (`src/malloc.c`): what `set_inuse` makes of a chunk and of the free one behind it.

- `InvOn.reshape`: a chunk in use, and the free one behind it, may be replaced by other chunks.
- `Inv.cut`, `InvOn.absorb`, `Inv.absorb_dv`, `Inv.extend_top`: the ways in which this is done.
- `InvOn.user_write`: the user may write what he likes.
-/
import SandiaShmem.Heap.Free

namespace SandiaShmem.Heap

open Blocks

/-! ## Other chunks in the same place -/

section
variable {Y : Sys} {s : MState} {pre mid mid' post : List (ℕ × Tag)} {a p q n k : ℕ} {mem mem' : Mem} {F : Set ℕ}

/-- a chunk in use at p has been replaced by those of mid', and nothing else has changed for the users -/
structure Reshaped (Y : Sys) (s s' : MState) (bs bs' : List (ℕ × Tag)) (p : ℕ) (mid' : List (ℕ × Tag)) : Prop where
  inv : Inv Y s' bs'
  live : ∀ q k, At Y.base bs' q k .used ↔ (At Y.base bs q k .used ∧ q ≠ p) ∨ At p mid' q k .used
  data : ∀ q k, At Y.base bs q k .used → q ≠ p → ∀ x, Payload q k x → s'.mem x = s.mem x

/-- the free chunks when those in the middle are replaced -/
theorem frees_reshape (hpos : ∀ b ∈ pre ++ (mid ++ post), 0 < b.1) (hp : p = a + total pre) (hmid : mid ≠ [])
    (htotal : total mid' = total mid) :
    frees a (pre ++ (mid' ++ post)) = (frees a (pre ++ (mid ++ post)) \ frees p mid) ∪ frees p mid' := by
  obtain ⟨hiff, -⟩ := frees_merge hpos hp hmid
  ext q
  rw [mem_frees_append, mem_frees_append, ← hp, htotal, Set.mem_union, ← hiff]
  tauto

/-- and the ones in use, when that at p is replaced -/
theorem live_reshape (hpos : ∀ b ∈ pre ++ (mid ++ post), 0 < b.1) (hp : p = a + total pre) (hmid : Middle p mid p)
    (htotal : total mid' = total mid) :
    At a (pre ++ (mid' ++ post)) q k .used ↔
      (At a (pre ++ (mid ++ post)) q k .used ∧ q ≠ p) ∨ At p mid' q k .used := by
  rw [at_append, at_append, ← hp, htotal]
  constructor
  · intro hq
    rcases hq with hq | hq | hq
    · refine .inl ⟨(at_append ..).mpr (.inl hq), ?_⟩
      have := hq.bounds
      have := hpos _ ((at_append ..).mpr (.inl hq) : At a (pre ++ (mid ++ post)) q k .used).mem
      dsimp only at this
      omega
    · exact .inr hq
    · have hat : At a (pre ++ (mid ++ post)) q k .used := by
        rw [at_append, at_append, ← hp]
        exact .inr (.inr hq)
      refine .inl ⟨hat, (hmid.live hpos hp hat).mpr fun hk => ?_⟩
      have h1 := hk.bounds
      have h2 := hq.bounds
      have h3 := hpos _ hat.mem
      dsimp only at h3
      omega
  · rintro (⟨hat, hne⟩ | hq)
    · have hnot := (hmid.live hpos hp hat).mp hne
      rw [at_append, at_append, ← hp] at hat
      rcases hat with hq | hq | hq
      · exact .inl hq
      · exact absurd hq hnot
      · exact .inr (.inr hq)
    · exact .inr (.inl hq)

/-- **Other chunks in place of one in use.** With the free chunk behind it, if that is in the middle too. -/
theorem InvOn.reshape (mid : List (ℕ × Tag)) (dv' dvsize' : ℕ) (h : InvOn Y s (pre ++ (mid ++ post)) F)
    (hp : p = Y.base + total pre)
    (hmid : Middle p mid p) (htags : ∀ b ∈ mid', b.2 = .used ∨ b.2 = .free) (htotal : total mid' = total mid)
    (hlay : Layout mem' p (pinAfter true pre) mid')
    (hout : ∀ x, x < p + 8 ∨ p + total mid + 8 < x → mem' x = s.mem x)
    (hnext : head mem' (p + total mid) =
      { head s.mem (p + total mid) with pinuse := pinAfter (pinAfter true pre) mid' })
    (hpost : pinAfter (pinAfter true pre) mid' = true ∨ ∃ k rest, post = (k, .used) :: rest)
    (hF : F = (frees Y.base (pre ++ (mid ++ post)) \ frees p mid) \ {dv'})
    (hsub : ∀ q ∈ frees p mid', q = dv')
    (hdv : (dv' = 0 ∧ dvsize' = 0) ∨ (At Y.base (pre ++ (mid ++ post)) dv' dvsize' .free ∧ dv' ∉ frees p mid) ∨
      At p mid' dv' dvsize' .free) :
    Reshaped Y s { s with mem := mem', dv := dv', dvsize := dvsize' } (pre ++ (mid ++ post))
      (pre ++ (mid' ++ post)) p mid' := by
  have hpos := h.pos
  have hsize := h.size
  have htop := h.top
  have hrow : total (pre ++ (mid' ++ post)) = total (pre ++ (mid ++ post)) := by
    simp only [total_append, htotal]
  have hfrees := frees_reshape hpos hp hmid.ne_nil htotal
  have hold := h.layout
  rw [fullRow, List.append_assoc, List.append_assoc] at hold
  have hnew : Layout mem' Y.base true (pre ++ (mid' ++ (post ++ [(s.topsize, .top), (TOP_FOOT_SIZE, .foot)]))) := by
    subst hp
    refine hold.replace _ _ _ hlay htotal hout (fun _ => hnext) ?_
    rcases hpost with hpin | ⟨k, rest, rfl⟩
    · exact fun _ _ _ => hpin
    · rintro b hb (ht | ht) <;> · simp at hb; simp [← hb] at ht
  rw [← List.append_assoc mid', ← List.append_assoc pre] at hnew
  have hnew' := (layout_append.mp hnew).1
  have hkept : ∀ q ∈ frees Y.base (pre ++ (mid ++ post)) \ frees p mid, ∀ k,
      At Y.base (pre ++ (mid ++ post)) q k .free → At Y.base (pre ++ (mid' ++ post)) q k .free := by
    intro q hq k hk
    rw [at_append, at_append, ← hp] at hk
    rw [at_append, at_append, ← hp, htotal]
    rcases hk with hk | hk | hk
    · exact .inl hk
    · exact absurd ⟨k, hk⟩ hq.2
    · exact .inr (.inr hk)
  have hset : frees Y.base (pre ++ (mid' ++ post)) \ {dv'} = F := by
    rw [hF, hfrees, Set.union_sdiff_distrib]
    exact Set.union_eq_self_of_subset_right fun q hq => absurd (hsub q hq.1) hq.2
  have hFmid : ∀ q ∈ F, q ∈ frees Y.base (pre ++ (mid ++ post)) \ frees p mid := by
    rw [hF]
    exact fun q hq => hq.1
  refine ⟨⟨h.base, h.curr, h.fits, h.least, h.footprint, hnew, ?_, ?_, ?_, ?_, Set.sdiff_subset, ?_⟩, fun q k => ?_,
    fun q k hq hne x hx => ?_⟩
  · intro b hb
    have hold := h.tags b
    simp only [List.mem_append] at hb hold
    rcases hb with hb | hb | hb
    · exact hold (.inl hb)
    · exact htags b hb
    · exact hold (.inr (.inr hb))
  · rw [hrow]
    exact htop
  · rw [fullRow, total_append] at hsize ⊢
    rw [hrow]
    exact hsize
  · rcases hdv with hz | ⟨hat, hnot⟩ | hat
    · exact .inl hz
    · exact .inr (hkept dv' ⟨⟨_, hat⟩, hnot⟩ _ hat)
    · rw [at_append, at_append, ← hp]
      exact .inr (.inr (.inl hat))
  · dsimp only
    rw [hset]
    have hend := h.topsize_le
    simp only [total_append] at htop
    refine h.binned_frame (p := p) (n := total mid) rfl rfl (by omega) (by omega) hout (fun q hq => ?_) fun q hq => ?_
    · have hat := h.free_size (h.free hq)
      rw [at_append, at_append, ← hp] at hat
      rcases hat with hk | hk | hk
      · exact .inl (hp ▸ hk.bounds.2)
      · exact absurd ⟨_, hk⟩ (hFmid q hq).2
      · exact .inr hk.bounds.1
    · obtain ⟨k, hk⟩ := h.free hq
      exact chunksize_congr h.layout_bs hnew' hk (hkept q (hFmid q hq) k hk)
  · exact live_reshape hpos hp hmid htotal
  · exact hout x (payload_merge hp hq ((hmid.live hpos hp hq).mp hne) hx)

end

/-! ## The head words -/

section
variable {mem mem' : Mem} {p q a b n k x : ℕ}

theorem head_set_inuse (hn : 16 ∣ n) (hpos : 0 < n) : head (set_inuse mem p n) q =
    if q = p then ⟨n, pinuse mem p, true⟩ else if q = p + n then { head mem q with pinuse := true } else head mem q := by
  have h8 : 8 ∣ n := (by decide : 8 ∣ 16).trans hn
  rw [set_inuse, head_set_pinuse, head_set_head h8]
  by_cases hq : q = p
  · simp [hq, hpos.ne']
  · simp [hq]

theorem set_inuse_of_ne (h1 : x ≠ p + 8) (h2 : x ≠ p + n + 8) : set_inuse mem p n x = mem x := by
  rw [set_inuse, set_pinuse_of_ne h2, set_head_of_ne h1]

/-- a chunk in use has been cut in two, both in use -/
structure CutMem (mem mem' : Mem) (p a b : ℕ) : Prop where
  first : head mem' p = ⟨a, pinuse mem p, true⟩
  second : head mem' (p + a) = ⟨b, true, true⟩
  next : head mem' (p + a + b) = { head mem (p + a + b) with pinuse := true }
  other : ∀ x, x ≠ p + 8 → x ≠ p + a + 8 → x ≠ p + a + b + 8 → mem' x = mem x

/-- the first part is marked first -/
theorem cutMem_forward (mem : Mem) (ha : 16 ∣ a) (hb : 16 ∣ b) (ha' : 0 < a) (hb' : 0 < b) :
    CutMem mem (set_inuse (set_inuse mem p a) (p + a) b) p a b := by
  refine ⟨?_, ?_, ?_, fun x h1 h2 h3 => ?_⟩
  · rw [head_set_inuse hb hb', if_neg (by omega), if_neg (by omega), head_set_inuse ha ha', if_pos rfl]
  · rw [head_set_inuse hb hb', if_pos rfl, pinuse, head_set_inuse ha ha', if_neg (by omega), if_pos rfl]
  · rw [head_set_inuse hb hb', if_neg (by omega), if_pos rfl, head_set_inuse ha ha', if_neg (by omega), if_neg (by omega)]
  · rw [set_inuse_of_ne h2 h3, set_inuse_of_ne h1 h2]

/-- the second part is marked first, with whatever the user had written there -/
theorem cutMem_backward (mem : Mem) (ha : 16 ∣ a) (hb : 16 ∣ b) (ha' : 0 < a) (hb' : 0 < b) :
    CutMem mem (set_inuse (set_inuse mem (p + a) b) p a) p a b := by
  refine ⟨?_, ?_, ?_, fun x h1 h2 h3 => ?_⟩
  · rw [head_set_inuse ha ha', if_pos rfl, pinuse, head_set_inuse hb hb', if_neg (by omega), if_neg (by omega), pinuse]
  · rw [head_set_inuse ha ha', if_neg (by omega), if_pos rfl, head_set_inuse hb hb', if_pos rfl]
  · rw [head_set_inuse ha ha', if_neg (by omega), if_neg (by omega), head_set_inuse hb hb', if_neg (by omega), if_pos rfl]
  · rw [set_inuse_of_ne h1 h2, set_inuse_of_ne h2 h3]

end

/-! ## Ways to change the size -/

section
variable {Y : Sys} {s : MState} {bs pre post : List (ℕ × Tag)} {p q a b n k x : ℕ} {mem' : Mem} {F : Set ℕ}

/-- a free chunk is none in use -/
theorem ne_of_free (h : InvOn Y s bs F) (hp : At Y.base bs p n .used) (hq : q ∈ frees Y.base bs) : q ≠ p := by
  rintro rfl
  obtain ⟨k, hk⟩ := hq
  cases (hk.unique h.pos hp).2

theorem middle_one : Middle p [(n, .used)] p := ⟨fun q k hq => (by simpa using hq : q = p ∧ k = n).1, n, by simp⟩

theorem middle_two : Middle p [(n, .used), (k, .free)] p := middle_one.snoc

theorem frees_one : frees p [(n, .used)] = ∅ := by
  ext q
  simp [mem_frees_cons]

theorem frees_two : frees p [(n, .used), (k, .free)] = {p + n} := by
  ext q
  simp [mem_frees_cons]

/-- **A chunk in use is cut in two.** -/
theorem Inv.cut (h : Inv Y s bs) (hp : At Y.base bs p (a + b) .used) (ha : 16 ∣ a) (ha' : MIN_CHUNK_SIZE ≤ a)
    (hb' : MIN_CHUNK_SIZE ≤ b) (hmem : CutMem s.mem mem' p a b) :
    ∃ bs', Reshaped Y s { s with mem := mem' } bs bs' p [(a, .used), (b, .used)] := by
  obtain ⟨pre, post, rfl, hpre⟩ := hp.split
  have hb : 16 ∣ b := (Nat.dvd_add_right ha).mp (h.chunk hp).2.1
  have hapos := ha'
  have hbpos := hb'
  unfold MIN_CHUNK_SIZE at hapos hbpos
  have hhead := h.next_head [] ((a + b, .used) :: post) hpre
  simp only [total_nil, Nat.add_zero, pinAfter] at hhead
  have hpin : pinuse s.mem p = pinAfter true pre := by rw [pinuse, hhead]
  have hlay : Layout mem' p (pinAfter true pre) [(a, .used), (b, .used)] := by
    refine ⟨⟨?_, ha, ha', by simp, by simp⟩, ⟨?_, hb, hb', by simp, by simp⟩, trivial⟩
    · rw [hmem.first, hpin]
      rfl
    · rw [hmem.second]
      rfl
  refine ⟨pre ++ ([(a, Tag.used), (b, Tag.used)] ++ post),
    h.reshape [(a + b, .used)] s.dv s.dvsize hpre middle_one (by simp) (by simp) hlay (fun x hx => ?_) ?_ (.inl rfl) ?_ ?_ ?_⟩
  · simp only [total_cons, total_nil] at hx
    exact hmem.other x (by omega) (by omega) (by omega)
  · simp only [total_cons, total_nil, Nat.add_zero, ← Nat.add_assoc]
    exact hmem.next
  · rw [frees_one, Set.sdiff_empty]
    rfl
  · simp [mem_frees_cons]
  · exact h.dv.imp_right fun hat => .inl ⟨hat, by rw [frees_one]; exact id⟩

/-- **A chunk in use takes the whole free chunk behind it.** -/
theorem InvOn.absorb (dv' dvsize' : ℕ) (h : InvOn Y s (pre ++ (n, .used) :: (k, .free) :: post) F)
    (hp : p = Y.base + total pre)
    (hF : F = (frees Y.base (pre ++ (n, .used) :: (k, .free) :: post) \ {p + n}) \ {dv'})
    (hdv : (dv' = 0 ∧ dvsize' = 0) ∨
      (At Y.base (pre ++ (n, .used) :: (k, .free) :: post) dv' dvsize' .free ∧ dv' ≠ p + n)) :
    ∃ bs', Reshaped Y s { s with mem := set_inuse s.mem p (n + k), dv := dv', dvsize := dvsize' }
      (pre ++ (n, .used) :: (k, .free) :: post) bs' p [(n + k, .used)] := by
  have hn := h.layout_bs.dvd (n, Tag.used) (by simp)
  have hk := h.layout_bs.dvd (k, Tag.free) (by simp)
  have h16 : 16 ∣ n + k := dvd_add hn hk
  have hat : At Y.base (pre ++ (n, Tag.used) :: (k, .free) :: post) p n .used := hp ▸ At.of_split rfl
  have hmin := (h.chunk hat).2.2.1
  have hhead := h.next_head [] ((n, .used) :: (k, .free) :: post) hp
  simp only [total_nil, Nat.add_zero, pinAfter] at hhead
  have hpin : pinuse s.mem p = pinAfter true pre := by rw [pinuse, hhead]
  have hlay : Layout (set_inuse s.mem p (n + k)) p (pinAfter true pre) [(n + k, .used)] := by
    refine ⟨⟨?_, h16, ?_, by simp, by simp⟩, trivial⟩
    · rw [head_set_inuse h16 (by omega), if_pos rfl, hpin]
      rfl
    · simp only [Tag.min, MIN_CHUNK_SIZE]
      omega
  refine ⟨pre ++ ([(n + k, Tag.used)] ++ post),
    h.reshape [(n, .used), (k, .free)] dv' dvsize' hp middle_two (by simp) (by simp) hlay (fun x hx => ?_) ?_ (.inl rfl) ?_ ?_ ?_⟩
  · simp only [total_cons, total_nil, Nat.add_zero] at hx
    exact set_inuse_of_ne (by omega) (by omega)
  · simp only [total_cons, total_nil, Nat.add_zero]
    rw [head_set_inuse h16 (by omega), if_neg (by omega), if_pos rfl]
    rfl
  · rw [frees_two]
    exact hF
  · simp [mem_frees_cons]
  · rw [frees_two]
    exact hdv.imp_right .inl

/-- **A chunk in use takes the first part of the dv behind it.** -/
theorem Inv.absorb_dv (h : Inv Y s (pre ++ (n, .used) :: (s.dvsize, .free) :: post)) (hp : p = Y.base + total pre)
    (hdv : p + n = s.dv) (ha : 16 ∣ a) (ha' : MIN_CHUNK_SIZE ≤ a) (hb' : MIN_CHUNK_SIZE ≤ b) (hab : a + b = n + s.dvsize)
    (hmem : mem' = clear_pinuse (set_size_and_pinuse_of_free_chunk (set_inuse s.mem p a) (p + a) b) (p + a + b)) :
    ∃ bs', Reshaped Y s { s with mem := mem', dv := p + a, dvsize := b }
      (pre ++ (n, .used) :: (s.dvsize, .free) :: post) bs' p [(a, .used), (b, .free)] := by
  have hn := h.layout_bs.dvd (n, Tag.used) (by simp)
  have hk := h.layout_bs.dvd (s.dvsize, Tag.free) (by simp)
  have h16 : 16 ∣ a + b := hab ▸ dvd_add hn hk
  have hb : 16 ∣ b := (Nat.dvd_add_right ha).mp h16
  have hat : At Y.base (pre ++ (n, Tag.used) :: (s.dvsize, .free) :: post) p n .used := hp ▸ At.of_split rfl
  have hp16 := (h.chunk hat).1
  have hhead := h.next_head [] ((n, .used) :: (s.dvsize, .free) :: post) hp
  simp only [total_nil, Nat.add_zero, pinAfter] at hhead
  have hpin : pinuse s.mem p = pinAfter true pre := by rw [pinuse, hhead]
  have hfree : At Y.base (pre ++ (n, Tag.used) :: (s.dvsize, .free) :: post) (p + n) s.dvsize .free := by
    rw [at_append, at_cons, at_cons, ← hp]
    exact .inr (.inr (.inl ⟨rfl, rfl, rfl⟩))
  have hnext : ∃ j rest, post = (j, Tag.used) :: rest := by
    rw [← List.singleton_append, ← List.append_assoc] at h
    exact h.next_used
  unfold MIN_CHUNK_SIZE at ha' hb'
  subst hmem
  have hlay : Layout (clear_pinuse (set_size_and_pinuse_of_free_chunk (set_inuse s.mem p a) (p + a) b) (p + a + b)) p
      (pinAfter true pre) [(a, .used), (b, .free)] := by
    refine ⟨⟨?_, ha, ha', by simp, by simp⟩, ⟨?_, hb, hb', by simp, fun _ => ?_⟩, trivial⟩
    · rw [head_clear_pinuse, if_neg (by omega), head_set_free_chunk hb (dvd_add hp16 ha) hp16, if_neg (by omega),
        head_set_inuse ha (by omega), if_pos rfl, hpin]
      rfl
    · rw [head_clear_pinuse, if_neg (by omega), head_set_free_chunk hb (dvd_add hp16 ha) (dvd_add hp16 ha), if_pos rfl]
      rfl
    · rw [clear_pinuse_of_ne (by omega), set_free_chunk_foot]
  refine ⟨pre ++ ([(a, Tag.used), (b, Tag.free)] ++ post), h.reshape [(n, .used), (s.dvsize, .free)] (p + a) b hp middle_two
    (by simp) (by simp [hab]) hlay (fun x hx => ?_) ?_ (.inr hnext) ?_ ?_ ?_⟩
  · simp only [total_cons, total_nil, Nat.add_zero] at hx
    rw [clear_pinuse_of_ne (by omega), set_free_chunk_of_ne (by omega) (by omega), set_inuse_of_ne (by omega) (by omega)]
  · simp only [total_cons, total_nil, Nat.add_zero, ← hab, ← Nat.add_assoc]
    have hend : 16 ∣ p + a + b := dvd_add (dvd_add hp16 ha) hb
    rw [head_clear_pinuse, if_pos rfl, head_set_free_chunk hb (dvd_add hp16 ha) hend, if_neg (by omega),
      head_set_inuse ha (by omega), if_neg (by omega), if_neg (by omega)]
    rfl
  · rw [frees_two, hdv]
    refine (Set.sdiff_singleton_eq_self (a := p + a) ?_).symm
    -- the second part begins inside the dv
    rintro ⟨⟨j, hj⟩, hne⟩
    have hjpos := h.pos _ hj.mem
    rcases hj.disjoint h.pos hat with ⟨-, -, ht⟩ | h1 | h1
    · cases ht
    · dsimp only at hjpos
      omega
    · rcases hj.disjoint h.pos hfree with ⟨h2, -⟩ | h2 | h2
      · exact hne (h2.trans hdv)
      · dsimp only at hjpos
        omega
      · omega
  · simp [mem_frees_cons]
  · exact .inr (.inr (by simp))

/-- **A chunk in use takes the first part of the top chunk behind it.** -/
theorem Inv.extend_top (h : Inv Y s (pre ++ [(n, .used)])) (hp : p = Y.base + total pre) (ha : 16 ∣ a)
    (ha' : MIN_CHUNK_SIZE ≤ a) (hb : 0 < b) (hab : a + b = n + s.topsize)
    (hmem : mem' = set_head (set_inuse s.mem p a) (p + a) ⟨b, true, false⟩) :
    ∃ bs', Reshaped Y s { s with mem := mem', top := p + a, topsize := b } (pre ++ [(n, .used)]) bs' p [(a, .used)] := by
  have hpos := h.pos
  have hn := h.layout_bs.dvd (n, Tag.used) (by simp)
  have hb16 : 16 ∣ b := (Nat.dvd_add_right ha).mp (hab ▸ dvd_add hn h.top_ok.2.1)
  have hb8 : 8 ∣ b := (by decide : 8 ∣ 16).trans hb16
  have hb' : 16 ≤ b := Nat.le_of_dvd hb hb16
  have hat : At Y.base (pre ++ [(n, Tag.used)]) p n .used := hp ▸ At.of_split rfl
  have hapos := ha'
  unfold MIN_CHUNK_SIZE at hapos
  have hhead := h.next_head [] [(n, .used)] hp
  simp only [total_nil, Nat.add_zero, pinAfter] at hhead
  have hpin : pinuse s.mem p = pinAfter true pre := by rw [pinuse, hhead]
  have hsize := h.size
  have htop := h.top
  have hold := h.layout
  rw [fullRow, show pre ++ [(n, Tag.used)] ++ [(s.topsize, Tag.top), (TOP_FOOT_SIZE, Tag.foot)] =
    pre ++ ([(n, .used), (s.topsize, .top)] ++ [(TOP_FOOT_SIZE, .foot)]) by simp] at hold
  have hlay : Layout mem' p (pinAfter true pre) [(a, .used), (b, .top)] := by
    subst hmem
    refine ⟨⟨?_, ha, ha', by simp, by simp⟩, ⟨?_, hb16, hb', by simp, by simp⟩, trivial⟩
    · rw [head_set_head hb8, if_neg (by omega), head_set_inuse ha (by omega), if_pos rfl, hpin]
      rfl
    · rw [head_set_head hb8, if_pos rfl]
      rfl
  have hfoot := (layout_append.mp (layout_append.mp hold).2).2.1.head_eq
  rw [← hp] at hfoot
  have hnew : Layout mem' Y.base true (pre ++ ([(a, .used), (b, .top)] ++ [(TOP_FOOT_SIZE, .foot)])) := by
    refine hold.replace _ _ _ (hp ▸ hlay) (by simp [hab]) (fun x hx => ?_) (fun _ => ?_) (by simp)
    · rw [← hp] at hx
      simp only [total_cons, total_nil, Nat.add_zero] at hx
      rw [hmem, set_head_of_ne (by omega), set_inuse_of_ne (by omega) (by omega)]
    · rw [← hp, hfoot]
      simp only [total_cons, total_nil, Nat.add_zero, pinAfter] at hfoot ⊢
      rw [hmem, head_set_head hb8, if_neg (by omega), head_set_inuse ha (by omega), if_neg (by omega), if_neg (by omega),
        hfoot]
  rw [show pre ++ ([(a, Tag.used), (b, Tag.top)] ++ [(TOP_FOOT_SIZE, Tag.foot)]) =
    pre ++ [(a, .used)] ++ [(b, .top), (TOP_FOOT_SIZE, .foot)] by simp] at hnew
  have hrow := (layout_append.mp hnew).1
  have hsame : ∀ q k, At Y.base (pre ++ [(n, Tag.used)]) q k .free ↔ At Y.base (pre ++ [(a, Tag.used)]) q k .free := by
    intro q k
    simp [at_append]
  have hfrees : frees Y.base (pre ++ [(a, Tag.used)]) = frees Y.base (pre ++ [(n, Tag.used)]) := by
    ext q
    exact exists_congr fun k => (hsame q k).symm
  refine ⟨pre ++ [(a, .used)], ⟨h.base, h.curr, h.fits, h.least, h.footprint, ?_, ?_, ?_, ?_, ?_, Set.sdiff_subset, ?_⟩,
    fun q k => ?_,
    fun q k hq hne x hx => ?_⟩
  · exact hnew
  · intro c hc
    rcases List.mem_append.mp hc with hc | hc
    · exact h.tags c (List.mem_append_left _ hc)
    · rw [List.mem_singleton.mp hc]
      exact .inl rfl
  · simp only [total_append, total_cons, total_nil]
    omega
  · simp only [fullRow, total_append, total_cons, total_nil] at hsize ⊢
    omega
  · exact h.dv.imp_right (hsame _ _).mp
  · have hend := h.topsize_le
    simp only [total_append, total_cons, total_nil] at htop
    rw [hfrees]
    refine h.binned_frame (p := p) (n := a) rfl rfl (by omega) (by omega) (fun x hx => ?_) (fun q hq => .inl ?_)
      fun q hq => ?_
    · dsimp only
      rw [hmem, set_head_of_ne (by omega), set_inuse_of_ne (by omega) (by omega)]
    · have hend' := (h.chunk (h.free_size hq.1)).2.2.2.2
      have hmin := (h.chunk (h.free_size hq.1)).2.2.1
      rcases h.apart hat hq.1 (ne_of_free h hat hq.1) with hle | hle
      · exact hle
      · omega
    · obtain ⟨k, hk⟩ := hq.1
      exact chunksize_congr h.layout_bs hrow hk ((hsame q k).mp hk)
  · rw [at_append, at_append, ← hp]
    simp only [at_cons, at_nil, or_false, and_true]
    constructor
    · rintro (hq | hq)
      · have h1 := hq.bounds
        have h2 := hpos _ ((at_append ..).mpr (.inl hq) : At Y.base (pre ++ [(n, Tag.used)]) q k .used).mem
        dsimp only at h2
        exact .inl ⟨.inl hq, by omega⟩
      · exact .inr hq
    · rintro (⟨hq | hq, hne⟩ | hq)
      · exact .inl hq
      · exact absurd hq.1 hne
      · exact .inr hq
  · obtain ⟨h1, h2⟩ := hx
    unfold TWO_SIZE_T_SIZES SIZE_T_SIZE at h1
    have h3 : q + k ≤ p := by
      have := (h.chunk hq).2.2.2.2
      rcases hq.disjoint hpos hat with ⟨heq, -⟩ | hle | hle
      · exact absurd heq hne
      · exact hle
      · simp only [total_append, total_cons, total_nil] at htop
        have := (h.chunk hq).2.2.1
        omega
    dsimp only
    rw [hmem, set_head_of_ne (by omega), set_inuse_of_ne (by omega) (by omega)]

/-- **The user may write into his chunk.** -/
theorem InvOn.user_write (h : InvOn Y s bs F) (hp : At Y.base bs p n .used)
    (hmem : ∀ x, ¬ Payload p n x → mem' x = s.mem x) : InvOn Y { s with mem := mem' } bs F := by
  have hlay := h.layout.payload (InvOn.at_full hp) hmem
  have hchunk := h.chunk hp
  have hend := h.topsize_le
  refine ⟨h.base, h.curr, h.fits, h.least, h.footprint, hlay, h.tags, h.top, h.size, h.dv, h.free, ?_⟩
  refine h.binned_frame (p := p) (n := n) rfl rfl hchunk.2.2.2.1 (by omega) (fun x hx => hmem x ?_) (fun q hq => ?_)
    fun q hq => ?_
  · rintro ⟨h1, h2⟩
    unfold TWO_SIZE_T_SIZES SIZE_T_SIZE at h1
    omega
  · exact h.apart hp (h.free hq) (ne_of_free h hp (h.free hq))
  · obtain ⟨k, hk⟩ := h.free hq
    exact chunksize_congr h.layout_bs (layout_append.mp hlay).1 hk hk

end

end SandiaShmem.Heap
