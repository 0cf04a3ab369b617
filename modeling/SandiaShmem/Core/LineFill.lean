/-
Greedy filling of lines.

A text is a list of symbols with a separator. When a line is longer than the width w it is broken at the last separator
among its first w + 1 symbols, else at its first separator, else not at all, and the rest is filled in the same way. The
separators at the breaks belong to no line.
- `intercalate_fill`: the lines with separators between them are the text.
- `fill_long`: a line longer than the width has no separator in it.
- `fill_chain`, `breaks_le`: two lines in a row and the break between them are longer than the width, so the number of
  breaks is at most twice the number of widths in the text, and one more.
- `breakPos_of_scan`, `breakPos_of_end`: what a scan that remembers the last separator it has seen finds.
-/
import Mathlib.Tactic

namespace LineFill

variable {α : Type*} [DecidableEq α] (sp : α)

/-- the position of the last separator -/
def lastSep : List α → Option ℕ
  | [] => none
  | c :: l => ((lastSep l).map (· + 1)).or (if c = sp then some 0 else none)

theorem lastSep_snoc (l : List α) (c : α) : lastSep sp (l ++ [c]) = if c = sp then some l.length else lastSep sp l := by
  induction l with
  | nil => simp [lastSep]
  | cons b l ih =>
    rw [List.cons_append, lastSep, ih, lastSep]
    split_ifs <;> simp

variable {sp}

/-- the last separator is one, and there is none behind it -/
theorem lastSep_eq_some {l : List α} {j : ℕ} (h : lastSep sp l = some j) : l[j]? = some sp ∧ sp ∉ l.drop (j + 1) := by
  induction l using List.reverseRecOn generalizing j with
  | nil => simp [lastSep] at h
  | append_singleton l c ih =>
    rw [lastSep_snoc] at h
    split_ifs at h with hc
    · obtain rfl := Option.some.inj h
      simp [hc]
    · obtain ⟨hj, hdrop⟩ := ih h
      have hlt : j < l.length := (List.getElem?_eq_some_iff.mp hj).1
      rw [List.getElem?_append_left hlt, List.drop_append_of_le_length hlt]
      refine ⟨hj, fun hmem => ?_⟩
      rcases List.mem_append.mp hmem with hmem | hmem
      · exact hdrop hmem
      · exact hc (List.mem_singleton.mp hmem).symm

theorem lastSep_eq_none {l : List α} : lastSep sp l = none ↔ sp ∉ l := by
  induction l using List.reverseRecOn with
  | nil => simp [lastSep]
  | append_singleton l c ih =>
    rw [lastSep_snoc]
    split_ifs with hc
    · simp [hc]
    · rw [ih, List.mem_append, List.mem_singleton, not_or]
      exact (and_iff_left (Ne.symm hc)).symm

/-- the position of the first separator -/
theorem idxOf?_eq_some {l : List α} {j : ℕ} : l.idxOf? sp = some j ↔ l[j]? = some sp ∧ sp ∉ l.take j := by
  rw [List.idxOf?_eq_some_iff, List.getElem?_eq_some_iff, exists_and_right.symm]
  refine exists_congr fun hlt => and_congr_right fun _ => ?_
  rw [List.mem_take_iff_getElem]
  constructor
  · rintro hfirst ⟨i, hi, heq⟩
    exact hfirst i (by omega) heq
  · intro hmem i hi heq
    exact hmem ⟨i, by omega, heq⟩

variable (sp)

/-- where the first line is broken -/
def breakPos (w : ℕ) (text : List α) : Option ℕ :=
  if text.length ≤ w then none else (lastSep sp (text.take (w + 1))).or (text.idxOf? sp)

variable {sp} {w : ℕ} {text : List α}

/-- behind the break there is no separator up to the width -/
theorem breakPos_eq_some {j : ℕ} (h : breakPos sp w text = some j) :
    text[j]? = some sp ∧ (w < j → sp ∉ text.take j) ∧
      ∃ k, w ≤ j + k ∧ k ≤ (text.drop (j + 1)).length ∧ sp ∉ (text.drop (j + 1)).take k := by
  unfold breakPos at h
  split_ifs at h with hlen
  cases hlast : lastSep sp (text.take (w + 1)) with
  | some i =>
    rw [hlast] at h
    obtain rfl : i = j := Option.some.inj h
    obtain ⟨hj, hdrop⟩ := lastSep_eq_some hlast
    obtain ⟨hlt, -⟩ := List.getElem?_eq_some_iff.mp hj
    rw [List.length_take] at hlt
    rw [List.getElem?_take_of_lt (by omega)] at hj
    refine ⟨hj, fun hw => by omega, w - i, by omega, by rw [List.length_drop]; omega, ?_⟩
    have hswap : (text.drop (i + 1)).take (w - i) = (text.take (w + 1)).drop (i + 1) := by
      rw [List.drop_take]
      exact congrArg (List.take · _) (by omega)
    rwa [hswap]
  | none =>
    rw [hlast, Option.none_or] at h
    obtain ⟨hj, hfirst⟩ := idxOf?_eq_some.mp h
    have hw : w < j := by
      by_contra hle
      have hmem : sp ∈ text.take (w + 1) := by
        apply List.mem_of_getElem? (i := j)
        rw [List.getElem?_take_of_lt (by omega)]
        exact hj
      exact lastSep_eq_none.mp hlast hmem
    exact ⟨hj, fun _ => hfirst, 0, hw.le, Nat.zero_le _, by simp⟩

theorem breakPos_lt {j : ℕ} (h : breakPos sp w text = some j) : j < text.length :=
  (List.getElem?_eq_some_iff.mp (breakPos_eq_some h).1).1

/-! ## What a scan finds -/

/-- a line that is not broken is no longer than the width, or has no separator -/
theorem breakPos_of_end (h : text.length ≤ w ∨ sp ∉ text) : breakPos sp w text = none := by
  unfold breakPos
  split_ifs with hlen
  · rfl
  · have hmem := h.resolve_left hlen
    rw [lastSep_eq_none.mpr fun hin => hmem (List.mem_of_mem_take hin), Option.none_or]
    exact List.idxOf?_eq_none_iff.mpr hmem

theorem breakPos_eq_none (h : breakPos sp w text = none) (hlen : w < text.length) : sp ∉ text := by
  rw [breakPos, if_neg (not_le.mpr hlen), Option.or_eq_none_iff] at h
  exact List.idxOf?_eq_none_iff.mp h.2

/-- a scan that has come to position i at the width or behind it, has not broken the line before, and has seen the last
separator at j -/
theorem breakPos_of_scan {i j : ℕ} (hi : i < text.length) (hw : w ≤ i) (hbefore : i ≤ w ∨ sp ∉ text.take i)
    (hlast : lastSep sp (text.take (i + 1)) = some j) : breakPos sp w text = some j := by
  rw [breakPos, if_neg (by omega)]
  by_cases hiw : i ≤ w
  · obtain rfl : i = w := Nat.le_antisymm hiw hw
    rw [hlast, Option.some_or]
  · -- behind the width it is the first separator
    have hnone := hbefore.resolve_left hiw
    rw [List.take_add_one, List.getElem?_eq_getElem hi, Option.toList_some, lastSep_snoc,
      lastSep_eq_none.mpr hnone] at hlast
    split_ifs at hlast with hsp
    obtain rfl : i = j := by simpa [List.length_take, Nat.min_eq_left hi.le] using hlast
    have hshort : sp ∉ text.take (w + 1) := fun hin => hnone (List.take_subset_take_left text (by omega) hin)
    rw [lastSep_eq_none.mpr hshort, Option.none_or]
    exact idxOf?_eq_some.mpr ⟨by rw [List.getElem?_eq_getElem hi, hsp], hnone⟩

/-! ## The lines -/

variable (sp w)

/-- the lines of a text -/
def fill (text : List α) : List (List α) :=
  match h : breakPos sp w text with
  | none => [text]
  | some j => text.take j :: fill (text.drop (j + 1))
termination_by text.length
decreasing_by
  have := breakPos_lt h
  rw [List.length_drop]
  omega

variable {sp w}

theorem fill_of_none (h : breakPos sp w text = none) : fill sp w text = [text] := by
  rw [fill]
  split
  · rfl
  · rename_i j hj
    rw [h] at hj
    cases hj

theorem fill_of_some {j : ℕ} (h : breakPos sp w text = some j) :
    fill sp w text = text.take j :: fill sp w (text.drop (j + 1)) := by
  rw [fill]
  split
  · rename_i hn
    rw [h] at hn
    cases hn
  · rename_i i hi
    obtain rfl := Option.some.inj (h.symm.trans hi)
    rfl

theorem fill_ne_nil (text : List α) : fill sp w text ≠ [] := by
  cases h : breakPos sp w text with
  | none => simp [fill_of_none h]
  | some j => simp [fill_of_some h]

theorem text_eq_of_break {j : ℕ} (h : breakPos sp w text = some j) : text = text.take j ++ sp :: text.drop (j + 1) := by
  obtain ⟨hlt, hj⟩ := List.getElem?_eq_some_iff.mp (breakPos_eq_some h).1
  rw [← hj, ← List.drop_eq_getElem_cons hlt, List.take_append_drop]

/-- **The lines are the text.** -/
theorem intercalate_fill (text : List α) : [sp].intercalate (fill sp w text) = text := by
  fun_induction fill sp w text with
  | case1 text h => exact List.intercalate_singleton
  | case2 text j h ih =>
    rw [List.intercalate_cons_of_ne_nil (fill_ne_nil _), ih, List.append_assoc]
    exact (text_eq_of_break h).symm

/-- every symbol is in a line, but one at each break -/
theorem length_fill (text : List α) :
    ((fill sp w text).map List.length).sum + (fill sp w text).length = text.length + 1 := by
  fun_induction fill sp w text with
  | case1 text h => simp
  | case2 text j h ih =>
    have hlt := breakPos_lt h
    rw [List.length_drop] at ih
    simp only [List.map_cons, List.sum_cons, List.length_cons, List.length_take]
    omega

/-- **Long lines.** A line that is longer than the width has no separator. -/
theorem fill_long (text : List α) : ∀ l ∈ fill sp w text, w < l.length → sp ∉ l := by
  fun_induction fill sp w text with
  | case1 text h => simpa using breakPos_eq_none h
  | case2 text j h ih =>
    refine List.forall_mem_cons.mpr ⟨fun hlen => ?_, ih⟩
    rw [List.length_take] at hlen
    exact (breakPos_eq_some h).2.1 (by omega)

/-- the first line reaches to the first separator -/
theorem fill_head {k : ℕ} (hk : k ≤ text.length) (hno : sp ∉ text.take k) :
    ∃ l ls, fill sp w text = l :: ls ∧ k ≤ l.length := by
  cases h : breakPos sp w text with
  | none => exact ⟨text, [], fill_of_none h, hk⟩
  | some j =>
    refine ⟨_, _, fill_of_some h, ?_⟩
    rw [List.length_take]
    by_contra hlt
    have hj : j < k := by omega
    apply hno
    apply List.mem_of_getElem? (i := j)
    rw [List.getElem?_take_of_lt hj]
    exact (breakPos_eq_some h).1

/-- two lines in a row are too long for one -/
theorem fill_chain (text : List α) : (fill sp w text).IsChain fun a b => w ≤ a.length + b.length := by
  fun_induction fill sp w text with
  | case1 text h => exact .singleton text
  | case2 text j h ih =>
    obtain ⟨k, hw, hk, hno⟩ := (breakPos_eq_some h).2.2
    obtain ⟨l, ls, hfill, hl⟩ := fill_head (w := w) hk hno
    rw [hfill] at ih ⊢
    have hlt := breakPos_lt h
    exact .cons_cons (by rw [List.length_take]; omega) ih

omit [DecidableEq α] in
theorem chain_length {l : List α} {ls : List (List α)} (h : (l :: ls).IsChain fun a b => w ≤ a.length + b.length) :
    ls.length * w + l.length ≤ 2 * ((l :: ls).map List.length).sum := by
  induction ls generalizing l with
  | nil => simp; omega
  | cons b ls ih =>
    obtain ⟨hab, hrest⟩ := List.isChain_cons_cons.mp h
    have := ih hrest
    simp only [List.map_cons, List.sum_cons, List.length_cons, Nat.succ_mul] at this ⊢
    omega

/-- **The number of breaks.** -/
theorem breaks_le (hw : 0 < w) (text : List α) : (fill sp w text).length - 1 ≤ 2 * (text.length / w) + 1 := by
  obtain ⟨l, ls, hfill⟩ : ∃ l ls, fill sp w text = l :: ls := List.exists_cons_of_ne_nil (fill_ne_nil text)
  have hsum : ((fill sp w text).map List.length).sum + (fill sp w text).length = text.length + 1 := length_fill text
  have hchain : (fill sp w text).IsChain fun a b => w ≤ a.length + b.length := fill_chain text
  rw [hfill] at hsum hchain ⊢
  have hlen := chain_length hchain
  rw [List.length_cons] at hsum ⊢
  -- fewer than 2 (n / w + 1) widths are in two texts
  have hn : text.length < w * (text.length / w + 1) := Nat.lt_mul_div_succ text.length hw
  have hlt : ls.length * w < 2 * (text.length / w + 1) * w := by
    calc ls.length * w ≤ 2 * ((l :: ls).map List.length).sum := (Nat.le_add_right _ _).trans hlen
      _ ≤ 2 * text.length := Nat.mul_le_mul_left 2 (by omega)
      _ < 2 * (w * (text.length / w + 1)) := (Nat.mul_lt_mul_left (by decide)).mpr hn
      _ = 2 * (text.length / w + 1) * w := by ring
  have := Nat.lt_of_mul_lt_mul_right hlt
  omega

omit [DecidableEq α] in
/-- lines joined by any string -/
theorem intercalate_snoc (sep : List α) (ls : List (List α)) (l : List α) :
    sep.intercalate (ls ++ [l]) = ls.flatMap (· ++ sep) ++ l := by
  induction ls with
  | nil => simp
  | cons a ls ih =>
    rw [List.cons_append, List.intercalate_cons_of_ne_nil (by simp), ih, List.flatMap_cons,
      List.append_assoc (a ++ sep)]

omit [DecidableEq α] in
theorem mem_intercalate {sep : List α} {ls : List (List α)} {c : α} (h : c ∈ sep.intercalate ls) :
    c ∈ sep ∨ ∃ l ∈ ls, c ∈ l := by
  induction ls using List.reverseRecOn with
  | nil => simp at h
  | append_singleton ls l ih =>
    rw [intercalate_snoc, List.mem_append, List.mem_flatMap] at h
    rcases h with ⟨a, ha, hc⟩ | hc
    · rcases List.mem_append.mp hc with hc | hc
      · exact .inr ⟨a, List.mem_append_left _ ha, hc⟩
      · exact .inl hc
    · exact .inr ⟨l, List.mem_append_right _ (List.mem_singleton_self l), hc⟩

/-- the lines have no other symbols than the text -/
theorem mem_of_mem_fill {c : α} (text : List α) : ∀ l ∈ fill sp w text, c ∈ l → c ∈ text := by
  fun_induction fill sp w text with
  | case1 text h => simp
  | case2 text j h ih =>
    refine List.forall_mem_cons.mpr ⟨List.mem_of_mem_take, fun l hl hc => List.mem_of_mem_drop (ih l hl hc)⟩

end LineFill
