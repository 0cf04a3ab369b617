/-
`shmem_util_wrap` (`src/util.c`): a text with line breaks, and an indent string after each break.

The loop copies the text and remembers the last space it has copied. From `wraplen` characters in a line on, it goes back
to that space in both buffers, writes a newline and the indent over what is there, and scans the rest of the line again.
Positions are offsets into the two buffers, and all positions that are written are recorded, with those that are written
over later. Where `malloc` fails the program ends with an error, which is not modelled.

- `step_inv`: what has been written is the lines of `LineFill.fill` and the part of the current line that is scanned.
- `util_wrap_relays`: for every `wraplen` that is not 0 the loop ends, and only spaces are replaced. Witness:
  `util_wrap_relays_abc`.
- `util_wrap_inBounds`: everything is written within the buffer iff there is an indent that is not empty (and the size of
  the buffer fits, or what is left of it is enough). Witness: `util_wrap_inBounds_abc`.
- `no_indent_overruns`: without an indent there is no byte for the final NUL.
-/
import SandiaShmem.Core.CString
import SandiaShmem.Core.LineFill
import SandiaShmem.Core.While
import Mathlib.Tactic

namespace SandiaShmem.Runtime.UtilWrap

open CString LineFill SandiaShmem.While

/-- `' '` -/
def space : Ch := 32

/-- `'\n'` -/
def newline : Ch := 10

/-- the local variables, the output buffer and the positions of it that have been written. `str_s` and `out_s`, which are
set and cleared together, are `saved`. -/
structure St where
  str_p : ℕ
  out_p : ℕ
  saved : Option (ℕ × ℕ)
  linelen : ℕ
  mem : ℕ → Ch
  written : List ℕ

/-- the characters of the indent, none for NULL -/
def indentChars (indent : Option CStr) : List Ch := indent.elim [] CStr.chars

/-- `indent != NULL ? strlen(indent) : 0` -/
def indent_len (indent : Option CStr) : ℕ := (indentChars indent).length

/-- the bytes the buffer is meant to have -/
def byteCount (str : CStr) (wraplen : ℕ) (indent : Option CStr) : ℕ :=
  str.chars.length + 2 * (str.chars.length / wraplen + 1) * indent_len indent

/-- the argument of malloc, a `size_t` -/
def allocSize (str : CStr) (wraplen : ℕ) (indent : Option CStr) : ℕ := byteCount str wraplen indent % 2 ^ 64

/-- `*p = c` in the output buffer -/
def put (p : ℕ) (c : Ch) (s : St) : St := { s with mem := Function.update s.mem p c, written := s.written ++ [p] }

/-- `strcpy(out_p, indent); out_p += indent_len` -/
def copyIndent (indent : CStr) (s : St) : St :=
  { s with
    mem := strcpy s.mem s.out_p indent
    written := s.written ++ List.range' s.out_p (indent.chars.length + 1)
    out_p := s.out_p + indent.chars.length }

/-- a space is remembered with its place in the output -/
def remember (str : CStr) (s : St) : St :=
  if str.get s.str_p = space then { s with saved := some (s.str_p, s.out_p) } else s

/-- back to the remembered space, newline and indent in its place -/
def wrap (indent : Option CStr) (str_s out_s : ℕ) (s : St) : St :=
  let s1 := { put out_s newline s with out_p := out_s + 1 }
  let s2 := match indent with | some t => copyIndent t s1 | none => s1
  { s2 with str_p := str_s + 1, saved := none, linelen := 0 }

/-- `*out_p++ = *str_p++; linelen++` -/
def copy (str : CStr) (s : St) : St :=
  { put s.out_p (str.get s.str_p) s with out_p := s.out_p + 1, str_p := s.str_p + 1, linelen := s.linelen + 1 }

/-- a round of the loop -/
def round (str : CStr) (wraplen : ℕ) (indent : Option CStr) (s : St) : St :=
  let s := remember str s
  if wraplen ≤ s.linelen then
    match s.saved with
    | some (str_s, out_s) => wrap indent str_s out_s s
    | none => copy str s
  else copy str s

/-- `shmem_util_wrap`; the size of the buffer is divided by `wraplen` -/
def shmem_util_wrap (fuel : ℕ) (str : CStr) (wraplen : ℕ) (indent : Option CStr) (mem : ℕ → Ch) : Outcome St :=
  if wraplen = 0 then .stopped
  else
    match loop (fun s => str.get s.str_p ≠ 0) (fun s => some (round str wraplen indent s)) fuel
      ⟨0, 0, none, 0, mem, []⟩ with
    | .returned s => .returned (put s.out_p 0 s)
    | o => o

/-- out is the text with some spaces replaced by a newline and the indent, and what is longer than `wraplen` between two
breaks has no space -/
def Relaid (wraplen : ℕ) (text indent out : List Ch) : Prop :=
  ∃ lines : List (List Ch), text = [space].intercalate lines ∧ out = (newline :: indent).intercalate lines ∧
    ∀ l ∈ lines, wraplen < l.length → space ∉ l

/-- everything has been written within the buffer -/
def InBounds (str : CStr) (wraplen : ℕ) (indent : Option CStr) (s : St) : Prop :=
  ∀ p ∈ s.written, p < allocSize str wraplen indent

/-- the line breaks of the text -/
def breaks (str : CStr) (wraplen : ℕ) : ℕ := (fill space wraplen str.chars).length - 1

/-- there is an indent, and the size of the buffer does not wrap around, or it is enough all the same -/
def Fits (str : CStr) (wraplen : ℕ) (indent : Option CStr) : Prop :=
  1 ≤ indent_len indent ∧ (byteCount str wraplen indent < 2 ^ 64 ∨
    str.chars.length + breaks str wraplen * indent_len indent < byteCount str wraplen indent % 2 ^ 64)

/-! ## The loop -/

section
variable (str : CStr) (wraplen : ℕ) (indent : Option CStr)

/-- the lines that are done, each with its break -/
def output (done : List (List Ch)) : List Ch := done.flatMap (· ++ newline :: indentChars indent)

/-- after k rounds, in the line that begins at position a of the text -/
structure Inv (k : ℕ) (s : St) (done : List (List Ch)) (a : ℕ) : Prop where
  lines : fill space wraplen str.chars = done ++ fill space wraplen (str.chars.drop a)
  start : (output indent done).length = a + done.length * indent_len indent
  str_p : s.str_p = a + s.linelen
  le : s.str_p ≤ str.chars.length
  out_p : s.out_p = (output indent done).length + s.linelen
  holds : Holds s.mem 0 (output indent done ++ (str.chars.drop a).take s.linelen)
  saved : s.saved = (lastSep space ((str.chars.drop a).take s.linelen)).map fun j =>
    (a + j, (output indent done).length + j)
  scan : s.linelen ≤ wraplen ∨ space ∉ (str.chars.drop a).take s.linelen
  written : ∀ p ∈ s.written, p ≤ str.chars.length + breaks str wraplen * indent_len indent
  rounds : k ≤ a * (str.chars.length + 1) + s.linelen

end

variable {str : CStr} {wraplen : ℕ} {indent : Option CStr} {k a : ℕ} {s : St} {done : List (List Ch)}

theorem init_inv (mem : ℕ → Ch) : Inv str wraplen indent 0 ⟨0, 0, none, 0, mem, []⟩ [] 0 := by
  constructor <;> simp [output, lastSep, Holds]

@[simp] theorem length_break (indent : Option CStr) : (newline :: indentChars indent).length = indent_len indent + 1 := rfl

theorem output_snoc (done : List (List Ch)) (l : List Ch) :
    output indent (done ++ [l]) = output indent done ++ l ++ newline :: indentChars indent := by simp [output]

/-- lines in front of other lines have a break each -/
theorem length_le_breaks {ls : List (List Ch)} {rest : List Ch}
    (h : fill space wraplen str.chars = ls ++ fill space wraplen rest) : ls.length ≤ breaks str wraplen := by
  have hpos : 0 < (fill space wraplen rest).length := List.length_pos_iff.mpr (fill_ne_nil rest)
  rw [breaks, h, List.length_append]
  omega

/-- the next character of the line -/
theorem Inv.take_succ (h : Inv str wraplen indent k s done a) (hlt : s.str_p < str.chars.length) :
    (str.chars.drop a).take (s.linelen + 1) = (str.chars.drop a).take s.linelen ++ [str.get s.str_p] := by
  have hget : (str.chars.drop a)[s.linelen]? = some (str.get s.str_p) := by
    rw [List.getElem?_drop, ← h.str_p, List.getElem?_eq_getElem hlt, CStr.get_eq hlt]
  rw [List.take_add_one, hget, Option.toList_some]

theorem Inv.length_take (h : Inv str wraplen indent k s done a) :
    ((str.chars.drop a).take s.linelen).length = s.linelen := by
  have := h.le
  have := h.str_p
  rw [List.length_take, List.length_drop]
  omega

/-- after the test for a space the last one up to this position is remembered -/
theorem Inv.remembered (h : Inv str wraplen indent k s done a) (hlt : s.str_p < str.chars.length) :
    (remember str s).saved = (lastSep space ((str.chars.drop a).take (s.linelen + 1))).map fun j =>
      (a + j, (output indent done).length + j) := by
  rw [h.take_succ hlt, lastSep_snoc, h.length_take, remember]
  split_ifs with hsp
  · simp [h.str_p, h.out_p]
  · exact h.saved

@[simp] theorem remember_str_p (str : CStr) (s : St) : (remember str s).str_p = s.str_p := by
  unfold remember; split_ifs <;> rfl

@[simp] theorem remember_out_p (str : CStr) (s : St) : (remember str s).out_p = s.out_p := by
  unfold remember; split_ifs <;> rfl

@[simp] theorem remember_linelen (str : CStr) (s : St) : (remember str s).linelen = s.linelen := by
  unfold remember; split_ifs <;> rfl

@[simp] theorem remember_mem (str : CStr) (s : St) : (remember str s).mem = s.mem := by
  unfold remember; split_ifs <;> rfl

@[simp] theorem remember_written (str : CStr) (s : St) : (remember str s).written = s.written := by
  unfold remember; split_ifs <;> rfl

/-- a character is copied: the line is not long enough to be broken, or there is no space in it -/
theorem copy_inv (h : Inv str wraplen indent k s done a) (hlt : s.str_p < str.chars.length)
    (hscan : s.linelen + 1 ≤ wraplen ∨ space ∉ (str.chars.drop a).take (s.linelen + 1)) :
    Inv str wraplen indent (k + 1) (copy str (remember str s)) done a := by
  have hlen : (output indent done ++ (str.chars.drop a).take s.linelen).length = s.out_p := by
    rw [List.length_append, h.length_take, h.out_p]
  have hdone := Nat.mul_le_mul_right (indent_len indent) (length_le_breaks h.lines)
  have hstr := h.str_p
  have hout := h.out_p
  have hstart := h.start
  constructor
  · exact h.lines
  · exact h.start
  · simp only [copy, remember_str_p, remember_linelen]
    omega
  · simp only [copy, remember_str_p]
    omega
  · simp only [copy, remember_out_p, remember_linelen]
    omega
  · have hput := h.holds.put (str.get s.str_p)
    rw [hlen, Nat.zero_add, List.append_assoc, ← h.take_succ hlt] at hput
    simpa [copy, put] using hput
  · simp only [copy, remember_linelen]
    exact h.remembered hlt
  · simpa only [copy, remember_linelen] using hscan
  · intro p hp
    simp only [copy, put, remember_written, remember_out_p, List.mem_append, List.mem_singleton] at hp
    rcases hp with hp | rfl
    · exact h.written p hp
    · omega
  · simp only [copy, remember_linelen]
    exact Nat.succ_le_succ h.rounds

/-- what `wrap` leaves when the text up to the space is l -/
theorem wrap_holds (indent : Option CStr) (str_s : ℕ) {l : List Ch} (h : Holds s.mem 0 l) :
    Holds (wrap indent str_s l.length s).mem 0 (l ++ newline :: indentChars indent) ∧
      (wrap indent str_s l.length s).out_p = l.length + 1 + indent_len indent ∧
      ∀ p ∈ (wrap indent str_s l.length s).written, p ∈ s.written ∨ p ≤ l.length + 1 + indent_len indent := by
  have hput := h.put newline
  rw [Nat.zero_add] at hput
  cases indent with
  | none =>
    refine ⟨hput, rfl, fun p hp => ?_⟩
    simp only [wrap, put, List.mem_append, List.mem_singleton] at hp
    exact hp.imp_right fun hp => by omega
  | some t =>
    have hcopy := hput.strcpy t
    rw [List.length_append, List.length_singleton, Nat.zero_add, List.append_assoc] at hcopy
    refine ⟨hcopy, rfl, fun p hp => ?_⟩
    simp only [wrap, put, copyIndent, List.mem_append, List.mem_singleton, List.mem_range'_1] at hp
    simp only [indent_len, indentChars, Option.elim_some]
    rcases hp with (hp | hp) | hp
    · exact .inl hp
    · exact .inr (by omega)
    · exact .inr (by omega)

/-- the line up to an earlier position -/
theorem Inv.holds_take (h : Inv str wraplen indent k s done a) {j : ℕ} (hj : j ≤ s.linelen) :
    Holds s.mem 0 (output indent done ++ (str.chars.drop a).take j) ∧
      (output indent done ++ (str.chars.drop a).take j).length = (output indent done).length + j := by
  have hlen := h.length_take
  have hsplit := (List.take_append_drop j ((str.chars.drop a).take s.linelen)).symm
  rw [List.take_take, Nat.min_eq_left hj] at hsplit
  have hall := h.holds
  rw [hsplit, ← List.append_assoc] at hall
  refine ⟨hall.left, ?_⟩
  rw [List.length_take] at hlen
  rw [List.length_append, List.length_take]
  omega

/-- the line is broken at the remembered space -/
theorem Inv.line_break (h : Inv str wraplen indent k s done a) (hlt : s.str_p < str.chars.length)
    (hlen : wraplen ≤ s.linelen) {j : ℕ} (hlast : lastSep space ((str.chars.drop a).take (s.linelen + 1)) = some j) :
    j ≤ s.linelen ∧ fill space wraplen str.chars =
      (done ++ [(str.chars.drop a).take j]) ++ fill space wraplen (str.chars.drop (a + j + 1)) := by
  have hline : s.linelen < (str.chars.drop a).length := by
    rw [List.length_drop]
    have := h.str_p
    omega
  constructor
  · obtain ⟨hj, -⟩ := List.getElem?_eq_some_iff.mp (lastSep_eq_some hlast).1
    rw [List.length_take] at hj
    omega
  · rw [h.lines, fill_of_some (breakPos_of_scan hline hlen h.scan hlast), List.drop_drop, List.append_assoc,
      List.singleton_append, Nat.add_assoc]

/-- a line is done: the next one begins behind the space -/
theorem wrap_inv (h : Inv str wraplen indent k s done a) (hlt : s.str_p < str.chars.length) (hlen : wraplen ≤ s.linelen)
    {j : ℕ} (hlast : lastSep space ((str.chars.drop a).take (s.linelen + 1)) = some j) :
    Inv str wraplen indent (k + 1) (wrap indent (a + j) ((output indent done).length + j) (remember str s))
      (done ++ [(str.chars.drop a).take j]) (a + j + 1) := by
  obtain ⟨hj, hlines⟩ := h.line_break hlt hlen hlast
  obtain ⟨hpre, hlenq⟩ := h.holds_take hj
  rw [← remember_mem str s] at hpre
  obtain ⟨hholds, hout_p, hwritten⟩ := wrap_holds indent (a + j) hpre
  rw [hlenq] at hholds hout_p hwritten
  have hlinelen : (wrap indent (a + j) ((output indent done).length + j) (remember str s)).linelen = 0 := rfl
  have hbytes := Nat.mul_le_mul_right (indent_len indent) (length_le_breaks hlines)
  rw [List.length_append, List.length_singleton, Nat.succ_mul] at hbytes
  have hstr := h.str_p
  have hsum := h.start
  constructor
  · exact hlines
  · rw [output_snoc, List.length_append, hlenq, length_break, List.length_append, List.length_singleton, Nat.succ_mul]
    omega
  · rw [hlinelen]; rfl
  · change a + j + 1 ≤ str.chars.length
    omega
  · rw [hout_p, hlinelen, output_snoc, List.length_append, hlenq, length_break]
    omega
  · rw [hlinelen, List.take_zero, List.append_nil, output_snoc]
    exact hholds
  · rw [hlinelen, List.take_zero]; rfl
  · exact .inl (hlinelen ▸ Nat.zero_le _)
  · intro p hp
    rcases hwritten p hp with hp | hp
    · exact h.written p (by rwa [remember_written] at hp)
    · omega
  · -- the line has fewer positions than the text, so the rounds spent on it are paid for by the progress in the text
    have hk := h.rounds
    have hgrow := Nat.le_mul_of_pos_left (str.chars.length + 1) (show 0 < j + 1 by omega)
    rw [hlinelen, Nat.add_assoc a, Nat.add_mul]
    omega

/-- each round keeps the lines that are done and the rest of the text -/
theorem step_inv (h : ∃ done a, Inv str wraplen indent k s done a) (hlt : s.str_p < str.chars.length) :
    ∃ done a, Inv str wraplen indent (k + 1) (round str wraplen indent s) done a := by
  obtain ⟨done, a, h⟩ := h
  have hsaved := h.remembered hlt
  simp only [round, remember_linelen]
  split_ifs with hlen
  · cases hlast : lastSep space ((str.chars.drop a).take (s.linelen + 1)) with
    | some j =>
      simp only [hsaved, hlast, Option.map_some]
      exact ⟨_, _, wrap_inv h hlt hlen hlast⟩
    | none =>
      simp only [hsaved, hlast, Option.map_none]
      exact ⟨_, _, copy_inv h hlt (.inr (lastSep_eq_none.mp hlast))⟩
  · exact ⟨_, _, copy_inv h hlt (.inl (by omega))⟩

/-- at the end of the text the current line is the last one -/
theorem Inv.finish (h : Inv str wraplen indent k s done a) (hend : s.str_p = str.chars.length) :
    output indent done ++ (str.chars.drop a).take s.linelen =
        (newline :: indentChars indent).intercalate (fill space wraplen str.chars) ∧
      s.out_p = str.chars.length + breaks str wraplen * indent_len indent := by
  have hstr := h.str_p
  have hall : (str.chars.drop a).take s.linelen = str.chars.drop a :=
    List.take_of_length_le (by rw [List.length_drop]; omega)
  have hscan := h.scan
  rw [hall] at hscan
  have hshort : s.linelen ≤ wraplen → (str.chars.drop a).length ≤ wraplen := by
    rw [List.length_drop]
    omega
  have hlines := h.lines
  rw [fill_of_none (breakPos_of_end (hscan.imp_left hshort))] at hlines
  constructor
  · rw [hall, hlines, intercalate_snoc]
    rfl
  · have hbreaks : breaks str wraplen = done.length := by simp [breaks, hlines]
    rw [hbreaks, h.out_p, h.start]
    omega

/-- an upper bound of the number of rounds -/
def maxRounds (str : CStr) : ℕ := (str.chars.length + 1) * (str.chars.length + 1)

/-- **The call.** It returns, its result is the lines of the text, and the last byte of the buffer that it writes is the
one behind them. -/
theorem util_wrap_spec (hw : 1 ≤ wraplen) (indent : Option CStr) (mem : ℕ → Ch) {fuel : ℕ} (hfuel : maxRounds str ≤ fuel) :
    ∃ s, shmem_util_wrap fuel str wraplen indent mem = .returned s ∧
      Reads s.mem 0 ((newline :: indentChars indent).intercalate (fill space wraplen str.chars)) ∧
      (∀ p ∈ s.written, p ≤ str.chars.length + breaks str wraplen * indent_len indent) ∧
      str.chars.length + breaks str wraplen * indent_len indent ∈ s.written := by
  have hcond : ∀ s : St, decide (str.get s.str_p ≠ 0) = true → s.str_p < str.chars.length := fun s hs =>
    CStr.get_ne_zero_iff.mp (of_decide_eq_true hs)
  have hbound : ∀ k s, (∃ done a, Inv str wraplen indent k s done a) → decide (str.get s.str_p ≠ 0) = true →
      k < maxRounds str := by
    rintro k s ⟨done, a, h⟩ hs
    have hlt := hcond s hs
    have hstr := h.str_p
    have hk := h.rounds
    have hmul := Nat.mul_le_mul_right (str.chars.length + 1) (show a ≤ str.chars.length by omega)
    rw [maxRounds, Nat.succ_mul]
    omega
  have hbody : ∀ k s s', (∃ done a, Inv str wraplen indent k s done a) → decide (str.get s.str_p ≠ 0) = true →
      some (round str wraplen indent s) = some s' → ∃ done a, Inv str wraplen indent (k + 1) s' done a := by
    rintro k s s' h hs heq
    obtain rfl := Option.some.inj heq
    exact step_inv h (hcond s hs)
  rcases loop_rule _ _ _ (maxRounds str) hbound hbody fuel 0 ⟨0, 0, none, 0, mem, []⟩ ⟨[], 0, init_inv mem⟩ (by omega)
    with ⟨k, s, hloop, ⟨done, a, h⟩, hend⟩ | ⟨-, k, s, -, hnone⟩
  · have hnul : s.str_p = str.chars.length := by
      have hge : ¬ s.str_p < str.chars.length := fun hlt => of_decide_eq_false hend (CStr.get_ne_zero_iff.mpr hlt)
      have := h.le
      omega
    obtain ⟨hout, hout_p⟩ := h.finish hnul
    refine ⟨put s.out_p 0 s, ?_, ?_, ?_, ?_⟩
    · rw [shmem_util_wrap, if_neg (by omega), hloop]
    · have hreads := h.holds.nul
      rw [Nat.zero_add, List.length_append, h.length_take, ← h.out_p, hout] at hreads
      exact hreads
    · intro p hp
      rcases List.mem_append.mp hp with hp | hp
      · exact h.written p hp
      · exact (List.mem_singleton.mp hp).trans hout_p |>.le
    · rw [← hout_p]
      exact List.mem_append_right _ (List.mem_singleton_self _)
  · cases hnone

/-! ## The text -/

/-- the result is a string without a NUL in it -/
theorem result_nonzero (str : CStr) (wraplen : ℕ) (indent : Option CStr) :
    ∀ c ∈ (newline :: indentChars indent).intercalate (fill space wraplen str.chars), c ≠ 0 := by
  intro c hc
  rcases mem_intercalate hc with hc | ⟨l, hl, hc⟩
  · cases indent with
    | none =>
      obtain rfl := List.mem_singleton.mp hc
      decide
    | some t =>
      rcases List.mem_cons.mp hc with rfl | hc
      · decide
      · exact t.nonzero c hc
  · exact str.nonzero c (mem_of_mem_fill str.chars l hl hc)

/-- **The text is only laid out again.** For every `wraplen` that is not 0 the loop ends. -/
theorem util_wrap_relays (str : CStr) (wraplen : ℕ) (hw : 1 ≤ wraplen) (indent : Option CStr) (mem : ℕ → Ch) :
    ∃ bound, ∀ fuel ≥ bound, ∃ s out, shmem_util_wrap fuel str wraplen indent mem = .returned s ∧
      (∀ c ∈ out, c ≠ 0) ∧ Reads s.mem 0 out ∧ Relaid wraplen str.chars (indentChars indent) out := by
  refine ⟨maxRounds str, fun fuel hfuel => ?_⟩
  obtain ⟨s, hs, hreads, -⟩ := util_wrap_spec hw indent mem hfuel
  exact ⟨s, _, hs, result_nonzero str wraplen indent, hreads, fill space wraplen str.chars, (intercalate_fill _).symm,
    rfl, fill_long _⟩

/-- the text `ab c` -/
def abc : CStr := ⟨[97, 98, 32, 99], by decide, by decide⟩

/-- an indent of one tab -/
def tab : CStr := ⟨[9], by decide, by decide⟩

theorem util_wrap_relays_abc : ∃ bound, ∀ fuel ≥ bound, ∃ s out,
    shmem_util_wrap fuel abc 2 (some tab) (fun _ => 0) = .returned s ∧ (∀ c ∈ out, c ≠ 0) ∧ Reads s.mem 0 out ∧
      Relaid 2 abc.chars [9] out :=
  util_wrap_relays abc 2 (by decide) (some tab) fun _ => 0

/-! ## The buffer -/

/-- an indent leaves a byte for the NUL -/
theorem lt_byteCount (hw : 1 ≤ wraplen) (hindent : 1 ≤ indent_len indent) :
    str.chars.length + breaks str wraplen * indent_len indent < byteCount str wraplen indent := by
  have hbreaks : breaks str wraplen ≤ 2 * (str.chars.length / wraplen) + 1 := breaks_le hw str.chars
  have hmul := Nat.mul_le_mul_right (indent_len indent)
    (show breaks str wraplen + 1 ≤ 2 * (str.chars.length / wraplen + 1) by omega)
  rw [Nat.succ_mul] at hmul
  unfold byteCount
  omega

/-- **The buffer.** Everything is written within it iff there is an indent that is not empty and the number of bytes is
not too large for a `size_t`, or is still enough. -/
theorem util_wrap_inBounds (str : CStr) (wraplen : ℕ) (hw : 1 ≤ wraplen) (indent : Option CStr) (mem : ℕ → Ch) :
    ∃ bound, ∀ fuel ≥ bound, ∃ s, shmem_util_wrap fuel str wraplen indent mem = .returned s ∧
      (InBounds str wraplen indent s ↔ Fits str wraplen indent) := by
  refine ⟨maxRounds str, fun fuel hfuel => ?_⟩
  obtain ⟨s, hs, -, hle, hmax⟩ := util_wrap_spec hw indent mem hfuel
  refine ⟨s, hs, ?_⟩
  constructor
  · intro hin
    have hlt : _ < byteCount str wraplen indent % 2 ^ 64 := hin _ hmax
    refine ⟨?_, .inr hlt⟩
    by_contra h0
    -- without an indent the buffer has the bytes of the text only
    have hnone : indent_len indent = 0 := by omega
    have hcount : byteCount str wraplen indent = str.chars.length := by simp [byteCount, hnone]
    have := Nat.mod_le (byteCount str wraplen indent) (2 ^ 64)
    omega
  · rintro ⟨hindent, hfits⟩ p hp
    apply (hle p hp).trans_lt
    rcases hfits with hsmall | hlt
    · rw [allocSize, Nat.mod_eq_of_lt hsmall]
      exact lt_byteCount hw hindent
    · exact hlt

theorem util_wrap_inBounds_abc : ∃ bound, ∀ fuel ≥ bound, ∃ s,
    shmem_util_wrap fuel abc 2 (some tab) (fun _ => 0) = .returned s ∧
      (InBounds abc 2 (some tab) s ↔ Fits abc 2 (some tab)) :=
  util_wrap_inBounds abc 2 (by decide) (some tab) fun _ => 0

/-- `ab c` without an indent: 4 bytes are allocated, and the NUL is the fifth -/
theorem no_indent_overruns : ∃ s, shmem_util_wrap 9 abc 2 none (fun _ => 0) = .returned s ∧ allocSize abc 2 none = 4 ∧
    ¬ InBounds abc 2 none s :=
  ⟨_, rfl, by decide, fun hin => absurd (hin 4 (by decide)) (by decide)⟩

end SandiaShmem.Runtime.UtilWrap
