/-
Which PEs are on the own node: `shmem_runtime_util_put_hostname` and `shmem_runtime_util_populate_node`
(`src/runtime_util.c`).

Every PE publishes its hostname, without the NUL, and the length of it. Later it compares its own hostname, with the NUL,
with that of each PE by strncmp and the length of the other: the two agree if the other name is a prefix of the own one.

- `strncmp_eq_zero_iff`: what the comparison finds.
- `populateLoop_entries`, `populateLoop_ranks`: the entries of location_array.
- `Discovers`: the array says who has the same hostname, and the relation between the PEs is an equivalence.
- `discovers_iff`: it does exactly if no hostname is a proper prefix of another.
-/
import Mathlib.Tactic

namespace SandiaShmem.Runtime.Node

/-! ## Model -/

/-- a string of the C library, without its NUL -/
structure Hostname (MAX_HOSTNAME_LEN : ℕ) where
  name : List UInt8
  nonzero : ∀ x ∈ name, x ≠ 0
  short : name.length ≤ MAX_HOSTNAME_LEN

/-- `gethostname(hostname, MAX_HOSTNAME_LEN); hostname[MAX_HOSTNAME_LEN] = 0` on a buffer that held junk -/
def hostnameBuf (MAX_HOSTNAME_LEN : ℕ) (name : List UInt8) (junk : ℕ → UInt8) : List UInt8 :=
  (name ++ 0 :: (List.range MAX_HOSTNAME_LEN).map junk).take MAX_HOSTNAME_LEN ++ [0]

def strlen (buf : List UInt8) : ℕ := (buf.takeWhile fun x => decide (x ≠ 0)).length

/-- the difference of the first characters that differ, among the first n and up to a NUL -/
def strncmp : List UInt8 → List UInt8 → ℕ → ℤ
  | x :: a, y :: b, n + 1 => if x ≠ y then x.toNat - y.toNat else if x = 0 then 0 else strncmp a b n
  | _, _, _ => 0

/-- what a PE has put into the key-value store -/
structure Published where
  hostname_len : ℕ
  hostname : List UInt8

/-- `shmem_runtime_util_put_hostname` -/
def putHostname (MAX_HOSTNAME_LEN : ℕ) (name : List UInt8) (junk : ℕ → UInt8) : Published :=
  let hostname := hostnameBuf MAX_HOSTNAME_LEN name junk
  ⟨strlen hostname, hostname.take (strlen hostname)⟩

/-- `peer_hostname` when the name has been read into it -/
def peerBuf (MAX_HOSTNAME_LEN : ℕ) (v : Published) (junk : ℕ → UInt8) : List UInt8 :=
  v.hostname.take v.hostname_len ++ (List.range (MAX_HOSTNAME_LEN + 1 - v.hostname_len)).map junk

/-- the loop of `shmem_runtime_util_populate_node` after i rounds: location_array and n_node_pes; `here` is the result of
the comparison -/
def populateLoop (here : ℕ → Bool) : ℕ → List ℤ × ℕ
  | 0 => ([], 0)
  | i + 1 =>
    let r := populateLoop here i
    if here i then (r.1 ++ [(r.2 : ℤ)], r.2 + 1) else (r.1 ++ [-1], r.2)

/-- `shmem_runtime_util_populate_node`: location_array and node_size; `none` stands for the invalid node size -/
def populateNode (MAX_HOSTNAME_LEN : ℕ) (name : List UInt8) (junk : ℕ → UInt8) (kvs : ℕ → Published)
    (peer_junk : ℕ → ℕ → UInt8) (size : ℕ) : Option (List ℤ × ℕ) :=
  let hostname := hostnameBuf MAX_HOSTNAME_LEN name junk
  let r := populateLoop (fun i =>
    decide (strncmp hostname (peerBuf MAX_HOSTNAME_LEN (kvs i) (peer_junk i)) (kvs i).hostname_len = 0)) size
  if r.2 < 1 ∨ r.2 > size then none else some r

/-- a job: the hostnames of the PEs, and what was in the buffers of each before -/
structure Job where
  MAX_HOSTNAME_LEN : ℕ
  size : ℕ
  host : ℕ → Hostname MAX_HOSTNAME_LEN
  put_junk : ℕ → ℕ → UInt8
  own_junk : ℕ → ℕ → UInt8
  peer_junk : ℕ → ℕ → ℕ → UInt8

namespace Job
variable (J : Job)

def name (p : ℕ) : List UInt8 := (J.host p).name

/-- the key-value store returns what was put -/
def kvs (p : ℕ) : Published := putHostname J.MAX_HOSTNAME_LEN (J.name p) (J.put_junk p)

/-- what `shmem_runtime_util_populate_node` sets on PE p -/
def populate (p : ℕ) : Option (List ℤ × ℕ) :=
  populateNode J.MAX_HOSTNAME_LEN (J.name p) (J.own_junk p) J.kvs (J.peer_junk p) J.size

/-- q is on the node of p, as p sees it -/
def OnNode (p q : ℕ) : Prop := ∃ l n, J.populate p = some (l, n) ∧ ∃ r, l[q]? = some r ∧ r ≠ -1

/-- location_array and node_size of PE p tell who has its hostname, and number these PEs in their order -/
def Tells (p : ℕ) : Prop :=
  ∃ l n, J.populate p = some (l, n) ∧ l.length = J.size ∧
    (∀ q < J.size, ∃ r, l[q]? = some r ∧ (r ≠ -1 ↔ J.name q = J.name p)) ∧
    (l.filter fun r => decide (0 ≤ r)) = (List.range n).map Int.ofNat

/-- node discovery is an equivalence -/
structure Discovers : Prop where
  tells : ∀ p < J.size, J.Tells p
  same : ∀ p < J.size, ∀ q < J.size, J.name p = J.name q → J.populate p = J.populate q
  symm : ∀ p < J.size, ∀ q < J.size, J.OnNode p q → J.OnNode q p
  trans : ∀ p < J.size, ∀ q < J.size, ∀ r < J.size, J.OnNode p q → J.OnNode q r → J.OnNode p r

end Job

/-! ## Strings -/

variable {MAX : ℕ}

/-- the buffer holds the name and a NUL -/
theorem hostnameBuf_eq (h : Hostname MAX) (junk : ℕ → UInt8) :
    ∃ rest, hostnameBuf MAX h.name junk = h.name ++ 0 :: rest := by
  unfold hostnameBuf
  rcases Nat.lt_or_ge h.name.length MAX with hlt | hge
  · obtain ⟨k, hk⟩ : ∃ k, MAX = h.name.length + (k + 1) := ⟨MAX - h.name.length - 1, by omega⟩
    conv => enter [1, rest, 1, 1, 1]; rw [hk]
    rw [List.take_append, List.take_of_length_le (by omega), Nat.add_sub_cancel_left, List.take_succ_cons,
      List.append_assoc, List.cons_append]
    exact ⟨_, rfl⟩
  · have heq : h.name.length = MAX := Nat.le_antisymm h.short hge
    rw [List.take_left' heq]
    exact ⟨[], rfl⟩

theorem strlen_eq {name : List UInt8} (h : ∀ x ∈ name, x ≠ 0) (rest : List UInt8) : strlen (name ++ 0 :: rest) = name.length := by
  unfold strlen
  rw [List.takeWhile_append_of_pos fun x hx => decide_eq_true (h x hx), List.takeWhile_cons_of_neg (by simp),
    List.append_nil]

/-- a PE publishes its name -/
theorem putHostname_eq (h : Hostname MAX) (junk : ℕ → UInt8) :
    putHostname MAX h.name junk = ⟨h.name.length, h.name⟩ := by
  obtain ⟨rest, hrest⟩ := hostnameBuf_eq h junk
  unfold putHostname
  simp only [hrest, strlen_eq h.nonzero, List.take_left']

/-- **The comparison** of the own name with another one finds whether the other is a prefix of it. -/
theorem strncmp_eq_zero_iff {own peer : List UInt8} (hown : ∀ x ∈ own, x ≠ 0) (hpeer : ∀ x ∈ peer, x ≠ 0)
    (r r' : List UInt8) : strncmp (own ++ 0 :: r) (peer ++ r') peer.length = 0 ↔ peer <+: own := by
  induction peer generalizing own with
  | nil =>
    refine iff_of_true ?_ List.nil_prefix
    cases own with
    | nil => cases r' <;> rfl
    | cons x own => cases r' <;> rfl
  | cons y peer ih =>
    have hy : y ≠ 0 := hpeer y List.mem_cons_self
    have hpeer' : ∀ x ∈ peer, x ≠ 0 := fun x hx => hpeer x (List.mem_cons_of_mem y hx)
    have hdiff : ∀ x : UInt8, x ≠ y → (x.toNat : ℤ) - y.toNat ≠ 0 := by
      intro x hx h0
      exact hx (UInt8.toNat_inj.mp (by omega))
    cases own with
    | nil =>
      refine iff_of_false ?_ (by simp)
      simp only [List.nil_append, List.cons_append, List.length_cons, strncmp, if_pos (Ne.symm hy)]
      exact hdiff 0 (Ne.symm hy)
    | cons x own =>
      have hx : x ≠ 0 := hown x List.mem_cons_self
      simp only [List.cons_append, List.length_cons, strncmp, if_neg hx]
      by_cases hxy : x = y
      · subst hxy
        rw [if_neg (not_not.mpr rfl), List.cons_prefix_cons, and_iff_right rfl]
        exact ih (fun z hz => hown z (List.mem_cons_of_mem x hz)) hpeer'
      · rw [if_pos hxy]
        exact iff_of_false (hdiff x hxy) fun h => hxy (List.cons_prefix_cons.mp h).1.symm

/-! ## The loop -/

variable {here : ℕ → Bool}

theorem populateLoop_length (i : ℕ) : (populateLoop here i).1.length = i := by
  induction i with
  | zero => rfl
  | succ i ih =>
    rw [populateLoop]
    split
    · rw [List.length_append, ih, List.length_singleton]
    · rw [List.length_append, ih, List.length_singleton]

variable (here) in
/-- an entry is not -1 where the comparison has found the PE here -/
theorem populateLoop_entries (i : ℕ) :
    ∀ q < i, ∃ r, (populateLoop here i).1[q]? = some r ∧ (r ≠ -1 ↔ here q = true) := by
  induction i with
  | zero => exact fun q hq => absurd hq (Nat.not_lt_zero q)
  | succ i ih =>
    intro q hq
    have hlast : ∀ v : ℤ, ((populateLoop here i).1 ++ [v])[i]? = some v := by
      intro v
      have hcat := List.getElem?_concat_length (l := (populateLoop here i).1) (a := v)
      rwa [populateLoop_length] at hcat
    have hold : ∀ v : ℤ, q < i → ((populateLoop here i).1 ++ [v])[q]? = (populateLoop here i).1[q]? := by
      intro v hqi
      exact List.getElem?_append_left (by rwa [populateLoop_length])
    rw [populateLoop]
    rcases Nat.lt_succ_iff_lt_or_eq.mp hq with hqi | rfl
    · obtain ⟨r, hr, hiff⟩ := ih q hqi
      refine ⟨r, ?_, hiff⟩
      split
      · rw [hold _ hqi, hr]
      · rw [hold _ hqi, hr]
    · split
      · rename_i hh
        exact ⟨_, hlast _, iff_of_true (by omega) hh⟩
      · rename_i hh
        exact ⟨_, hlast _, iff_of_false (not_not.mpr rfl) hh⟩

/-- the other entries are 0, 1, .., in order, and n_node_pes is their number -/
theorem populateLoop_ranks (i : ℕ) :
    (populateLoop here i).1.filter (fun r => decide (0 ≤ r)) = (List.range (populateLoop here i).2).map Int.ofNat := by
  induction i with
  | zero => rfl
  | succ i ih =>
    rw [populateLoop]
    split
    · rw [List.filter_append, ih, List.range_succ, List.map_append]
      rfl
    · rw [List.filter_append, ih]
      exact List.append_nil _

variable (here) in
theorem populateLoop_le (i : ℕ) : (populateLoop here i).2 ≤ i := by
  induction i with
  | zero => exact Nat.le_refl 0
  | succ i ih =>
    rw [populateLoop]
    split
    · exact Nat.succ_le_succ ih
    · exact Nat.le_succ_of_le ih

theorem populateLoop_pos {i p : ℕ} (hp : p < i) (hh : here p = true) : 1 ≤ (populateLoop here i).2 := by
  induction i with
  | zero => exact absurd hp (Nat.not_lt_zero p)
  | succ i ih =>
    rw [populateLoop]
    rcases Nat.lt_succ_iff_lt_or_eq.mp hp with hpi | rfl
    · split
      · exact Nat.le_add_left 1 _
      · exact ih hpi
    · rw [if_pos hh]
      exact Nat.le_add_left 1 _

/-! ## Discovery -/

variable (J : Job)

/-- the PEs whose name is a prefix of the own one -/
def Job.prefixes (p q : ℕ) : Bool := decide (J.name q <+: J.name p)

/-- the comparison of PE p with PE q -/
theorem Job.compare_eq (p q : ℕ) :
    decide (strncmp (hostnameBuf J.MAX_HOSTNAME_LEN (J.name p) (J.own_junk p))
      (peerBuf J.MAX_HOSTNAME_LEN (J.kvs q) (J.peer_junk p q)) (J.kvs q).hostname_len = 0) = J.prefixes p q := by
  obtain ⟨rest, hrest⟩ := hostnameBuf_eq (J.host p) (J.own_junk p)
  have hkvs : J.kvs q = ⟨(J.name q).length, J.name q⟩ := putHostname_eq (J.host q) (J.put_junk q)
  unfold Job.prefixes peerBuf
  rw [hkvs, Job.name, hrest, List.take_length]
  exact decide_eq_decide.mpr (strncmp_eq_zero_iff (J.host p).nonzero (J.host q).nonzero ..)

theorem Job.populate_eq {p : ℕ} (hp : p < J.size) : J.populate p = some (populateLoop (J.prefixes p) J.size) := by
  have hself : J.prefixes p p = true := decide_eq_true (List.prefix_refl _)
  have hpos := populateLoop_pos hp hself
  have hle := populateLoop_le (J.prefixes p) J.size
  unfold Job.populate populateNode
  simp only [J.compare_eq p]
  exact if_neg (not_or.mpr ⟨Nat.not_lt.mpr hpos, Nat.not_lt.mpr hle⟩)

variable {J}

theorem Job.onNode_iff {p q : ℕ} (hp : p < J.size) (hq : q < J.size) : J.OnNode p q ↔ J.name q <+: J.name p := by
  obtain ⟨r, hr, hiff⟩ := populateLoop_entries (J.prefixes p) J.size q hq
  rw [Job.prefixes, decide_eq_true_iff] at hiff
  constructor
  · rintro ⟨l, n, hl, r', hr', hne⟩
    rw [J.populate_eq hp, Option.some.injEq] at hl
    rw [hl] at hr
    rw [hr, Option.some.injEq] at hr'
    exact hiff.mp (hr' ▸ hne)
  · exact fun h => ⟨_, _, J.populate_eq hp, r, hr, hiff.mpr h⟩

/-- the array of a PE tells who has its hostname if no other name is a proper prefix of it -/
theorem Job.tells_of_noPrefix {p : ℕ} (hp : p < J.size)
    (h : ∀ q < J.size, J.name q <+: J.name p → J.name q = J.name p) : J.Tells p := by
  refine ⟨_, _, J.populate_eq hp, populateLoop_length J.size, fun q hq => ?_, populateLoop_ranks J.size⟩
  obtain ⟨r, hr, hiff⟩ := populateLoop_entries (J.prefixes p) J.size q hq
  rw [Job.prefixes, decide_eq_true_iff] at hiff
  exact ⟨r, hr, hiff.trans ⟨h q hq, fun heq => heq ▸ List.prefix_refl _⟩⟩

/-- **Node discovery.** The arrays of all PEs tell who has the same hostname and number these PEs in order, PEs with one
hostname have one array, and "on my node" is symmetric and transitive, exactly if no hostname is a proper prefix of another
one. -/
theorem discovers_iff (J : Job) :
    J.Discovers ↔ ∀ p < J.size, ∀ q < J.size, J.name q <+: J.name p → J.name q = J.name p := by
  constructor
  · intro h p hp q hq hpre
    obtain ⟨l, n, hl, -, hentries, -⟩ := h.tells p hp
    obtain ⟨r, hr, hiff⟩ := hentries q hq
    obtain ⟨l', n', hl', r', hr', hne⟩ := (Job.onNode_iff hp hq).mpr hpre
    rw [hl, Option.some.injEq, Prod.mk.injEq] at hl'
    rw [hl'.1, hr', Option.some.injEq] at hr
    exact hiff.mp (hr ▸ hne)
  · intro h
    refine ⟨fun p hp => Job.tells_of_noPrefix hp (h p hp), fun p hp q hq heq => ?_, fun p hp q hq hpq => ?_,
      fun p hp q hq r hr hpq hqr => ?_⟩
    · have hsame : J.prefixes p = J.prefixes q := by
        funext x
        unfold Job.prefixes
        rw [heq]
      rw [J.populate_eq hp, J.populate_eq hq, hsame]
    · rw [Job.onNode_iff hp hq] at hpq
      rw [Job.onNode_iff hq hp, h p hp q hq hpq]
    · rw [Job.onNode_iff hp hq] at hpq
      rw [Job.onNode_iff hq hr] at hqr
      exact (Job.onNode_iff hp hr).mpr (hqr.trans hpq)

/-- a job of two PEs on the nodes "n1" and "n10" -/
def twoNodes : Job where
  MAX_HOSTNAME_LEN := 64
  size := 2
  host p := if p = 0 then ⟨[110, 49], by simp, by decide⟩ else ⟨[110, 49, 48], by simp, by decide⟩
  put_junk _ _ := 0
  own_junk _ _ := 0
  peer_junk _ _ _ := 0

/-- **n1 and n10.** The PE on n10 takes the one on n1 for a PE of its own node, which in turn is alone. -/
theorem discovers_not_symm :
    twoNodes.populate 0 = some ([0, -1], 1) ∧ twoNodes.populate 1 = some ([0, 1], 2) ∧ ¬ twoNodes.Discovers := by
  have h0 : twoNodes.populate 0 = some ([0, -1], 1) := by decide
  have h1 : twoNodes.populate 1 = some ([0, 1], 2) := by decide
  refine ⟨h0, h1, fun h => ?_⟩
  obtain ⟨l, n, hl, r, hr, hne⟩ := h.symm 1 (by decide) 0 (by decide) ⟨_, _, h1, 0, rfl, by decide⟩
  rw [h0, Option.some.injEq, Prod.mk.injEq] at hl
  rw [← hl.1] at hr
  exact hne (Option.some.inj hr).symm

end SandiaShmem.Runtime.Node
