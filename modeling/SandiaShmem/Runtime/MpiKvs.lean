/-
The key-value store of the MPI runtime (`src/runtime-mpi.c`).

Every PE collects records of MAX_KV_LENGTH bytes, a key and a value in turn. The exchange gathers the records of all PEs
into one array, PE by PE. A lookup begins with the records of the PE that it asks for, and goes on over those of all PEs
behind it when it does not find the key there.

Sizes and indices are products of `int`s; one that does not fit is an error here.

- `getLoop_eq`: the strided loop finds the first put of the key in the rest of the array.
- `get_eq`: that is the first put by the PE, or else by one behind it.
- `get_right_iff`: when a lookup is right.
-/
import SandiaShmem.Core.CInt

namespace SandiaShmem.Runtime.MpiKvs

open CInt

/-! ## Model -/

def MAX_KV_COUNT : ℕ := 20

def MAX_KV_LENGTH : ℕ := 512

/-- a record of the store -/
abbrev Record := List UInt8

/-- MAX_KV_LENGTH bytes from a pointer, whatever is behind what it points to -/
def record (bytes : List UInt8) (behind : ℕ → UInt8) : Record :=
  (bytes ++ (List.range MAX_KV_LENGTH).map behind).take MAX_KV_LENGTH

/-- a call of `shmem_runtime_put`: a key that fits into a record with its NUL, a value, and what is behind the two -/
structure PutCall where
  key : List UInt8
  value : List UInt8
  behind_key : ℕ → UInt8
  behind_value : ℕ → UInt8
  nonzero : ∀ x ∈ key, x ≠ 0
  fits : key.length < MAX_KV_LENGTH

def PutCall.keyRecord (c : PutCall) : Record := record (c.key ++ [0]) c.behind_key

def PutCall.valueRecord (c : PutCall) : Record := record c.value c.behind_value

/-- `shmem_runtime_put`: kv_store_me after it; its length is kv_length -/
def put (kv_store_me : List Record) (c : PutCall) : Option (List Record) :=
  if kv_store_me.length < MAX_KV_COUNT ∧ c.value.length < MAX_KV_LENGTH then
    some (kv_store_me ++ [c.keyRecord] ++ [c.valueRecord])
  else none

/-- the difference of the first characters that differ, up to a NUL -/
def strcmp : List UInt8 → List UInt8 → ℤ
  | x :: a, y :: b => if x ≠ y then x.toNat - y.toNat else if x = 0 then 0 else strcmp a b
  | _, _ => 0

/-- the record that `kv_index` points to -/
def kvIndex (kv_set : List Record) (index : ℕ) : Except Fault Record := do
  let _ ← checked 32 (index * MAX_KV_LENGTH : ℕ)
  return kv_set.getD index []

/-- the loop of `shmem_runtime_get` from index i on, below `stop`, for so many rounds at most: the record behind the first
one that is the key -/
def getLoop (kv_store_all : List Record) (key : List UInt8) (stop : ℕ) : ℕ → ℕ → Except Fault (Option Record)
  | 0, _ => .ok none
  | rounds + 1, i =>
    if i < stop then do
      let k ← kvIndex kv_store_all i
      if strcmp k (key ++ [0]) = 0 then
        let v ← kvIndex kv_store_all (i + 1)
        return some v
      else getLoop kv_store_all key stop rounds (i + 2)
    else .ok none

/-- `shmem_runtime_get`: the bytes that it copies, or `none` when it returns an error -/
def get (kv_store_all : List Record) (kv_length size pe : ℕ) (key : List UInt8) (valuelen : ℕ) :
    Except Fault (Option (List UInt8)) := do
  let start ← checked 32 (pe * kv_length : ℕ)
  let stop ← checked 32 (kv_length * size : ℕ)
  let v ← getLoop kv_store_all key stop.toNat stop.toNat start.toNat
  return v.map (List.take valuelen)

/-- a job: the puts of each PE before the exchange, all successful, and as many on one PE as on the other -/
structure Job where
  size : ℕ
  puts : ℕ → List PutCall
  kv_store_me : ℕ → List Record
  ok : ∀ p < size, (puts p).foldlM put [] = some (kv_store_me p)
  same : ∀ p < size, ∀ q < size, (puts p).length = (puts q).length

namespace Job
variable (J : Job)

/-- the stores of all PEs one after the other -/
def gathered : List Record := (List.range J.size).flatMap J.kv_store_me

/-- `shmem_runtime_exchange` on the PE me: kv_store_all. The memory is allocated with the size `chunkSize * size`. -/
def exchange (me : ℕ) : Except Fault (List Record) :=
  if J.size = 1 then .ok (J.kv_store_me me)
  else do
    let chunkSize := (J.kv_store_me me).length * MAX_KV_LENGTH
    let _ ← checked 32 (chunkSize * J.size : ℕ)
    return J.gathered

/-- a lookup by the PE me after the exchange -/
def get (me pe : ℕ) (key : List UInt8) (valuelen : ℕ) : Except Fault (Option (List UInt8)) := do
  let kv_store_all ← J.exchange me
  MpiKvs.get kv_store_all (J.kv_store_me me).length J.size pe key valuelen

/-- the first put of a key by a PE -/
def firstPut (pe : ℕ) (key : List UInt8) : Option PutCall := (J.puts pe).find? fun c => decide (c.key = key)

end Job

/-! ## Strings and records -/

theorem strcmp_eq_zero_iff {a b : List UInt8} (ha : ∀ x ∈ a, x ≠ 0) (hb : ∀ x ∈ b, x ≠ 0) (r : List UInt8) :
    strcmp (a ++ 0 :: r) (b ++ [0]) = 0 ↔ a = b := by
  have hdiff : ∀ x y : UInt8, x ≠ y → (x.toNat : ℤ) - y.toNat ≠ 0 := by
    intro x y hxy h0
    exact hxy (UInt8.toNat_inj.mp (by omega))
  induction a generalizing b with
  | nil =>
    cases b with
    | nil => exact iff_of_true rfl rfl
    | cons y b =>
      have hy : 0 ≠ y := Ne.symm (hb y List.mem_cons_self)
      refine iff_of_false ?_ nofun
      simp only [List.nil_append, List.cons_append, strcmp, if_pos hy]
      exact hdiff 0 y hy
  | cons x a ih =>
    have hx : x ≠ 0 := ha x List.mem_cons_self
    have ha' : ∀ z ∈ a, z ≠ 0 := fun z hz => ha z (List.mem_cons_of_mem x hz)
    cases b with
    | nil =>
      refine iff_of_false ?_ nofun
      simp only [List.nil_append, List.cons_append, strcmp, if_pos hx]
      exact hdiff x 0 hx
    | cons y b =>
      simp only [List.cons_append, strcmp, if_neg hx]
      by_cases hxy : x = y
      · subst hxy
        rw [if_neg (not_not.mpr rfl), List.cons.injEq, and_iff_right rfl]
        exact ih ha' fun z hz => hb z (List.mem_cons_of_mem x hz)
      · rw [if_pos hxy]
        exact iff_of_false (hdiff x y hxy) fun h => hxy (List.cons.inj h).1

/-- a key record is the key, a NUL, and more -/
theorem keyRecord_eq (c : PutCall) : ∃ rest, c.keyRecord = c.key ++ 0 :: rest := by
  obtain ⟨k, hk⟩ : ∃ k, MAX_KV_LENGTH = c.key.length + (k + 1) := ⟨MAX_KV_LENGTH - c.key.length - 1, by have := c.fits; omega⟩
  unfold PutCall.keyRecord record
  conv => enter [1, rest, 1, 1]; rw [hk]
  rw [List.append_assoc, List.take_append, List.take_of_length_le (by omega), Nat.add_sub_cancel_left,
    List.singleton_append, List.take_succ_cons]
  exact ⟨_, rfl⟩

/-- the comparison of a record with a key -/
theorem strcmp_keyRecord (c : PutCall) {key : List UInt8} (hkey : ∀ x ∈ key, x ≠ 0) :
    strcmp c.keyRecord (key ++ [0]) = 0 ↔ c.key = key := by
  obtain ⟨rest, hrest⟩ := keyRecord_eq c
  rw [hrest]
  exact strcmp_eq_zero_iff c.nonzero hkey rest

/-- the records of a sequence of puts -/
def records (cs : List PutCall) : List Record := cs.flatMap fun c => [c.keyRecord, c.valueRecord]

theorem records_length (cs : List PutCall) : (records cs).length = cs.length * 2 := by
  induction cs with
  | nil => rfl
  | cons c cs ih =>
    unfold records at ih ⊢
    rw [List.flatMap_cons, List.length_append, ih, List.length_cons (a := c), Nat.succ_mul, Nat.add_comm]
    rfl

/-- put number j is at the indices 2 j and 2 j + 1 -/
theorem records_getD (cs : List PutCall) {j : ℕ} (hj : j < cs.length) :
    (records cs).getD (2 * j) [] = cs[j].keyRecord ∧ (records cs).getD (2 * j + 1) [] = cs[j].valueRecord := by
  induction cs generalizing j with
  | nil => exact absurd hj (Nat.not_lt_zero j)
  | cons c cs ih =>
    cases j with
    | zero => exact ⟨rfl, rfl⟩
    | succ j => exact ih (Nat.lt_of_succ_lt_succ hj)

/-- successful puts leave their records -/
theorem foldlM_put {cs : List PutCall} {s s' : List Record} (h : cs.foldlM put s = some s') : s' = s ++ records cs := by
  induction cs generalizing s with
  | nil => exact (Option.some.inj h).symm.trans (List.append_nil s).symm
  | cons c cs ih =>
    rw [List.foldlM_cons] at h
    unfold put at h
    split at h
    · rw [ih h, List.append_assoc, List.append_assoc]
      rfl
    · exact absurd h nofun

/-- successful puts leave at most one record too many -/
theorem foldlM_put_length {cs : List PutCall} {s s' : List Record} (h : cs.foldlM put s = some s') (hs : s.length ≤ 21) :
    s'.length ≤ 21 := by
  induction cs generalizing s with
  | nil => exact Option.some.inj h ▸ hs
  | cons c cs ih =>
    rw [List.foldlM_cons] at h
    unfold put at h
    split at h
    · rename_i hc
      refine ih h ?_
      have hcount : s.length < 20 := hc.1
      simp only [List.length_append, List.length_singleton]
      omega
    · exact absurd h nofun

/-! ## Lookups -/

theorem checked_nat {n : ℕ} (h : n < 2 ^ 31) : checked 32 n = .ok (n : ℤ) := checked_of_fits ⟨by omega, by omega⟩

theorem kvIndex_eq {kv_set : List Record} {index : ℕ} (h : index * MAX_KV_LENGTH < 2 ^ 31) :
    kvIndex kv_set index = .ok (kv_set.getD index []) := by
  rw [kvIndex, checked_nat h]
  rfl

/-- **The strided loop** finds the first put of the key in the rest of the array. -/
theorem getLoop_eq (cs : List PutCall) (hfit : 2 * cs.length * MAX_KV_LENGTH < 2 ^ 31) {key : List UInt8}
    (hkey : ∀ x ∈ key, x ≠ 0) (rounds j : ℕ) (hr : cs.length ≤ j + rounds) :
    getLoop (records cs) key (2 * cs.length) rounds (2 * j) =
      .ok (((cs.drop j).find? fun c => decide (c.key = key)).map PutCall.valueRecord) := by
  have hindex : ∀ i < 2 * cs.length, i * MAX_KV_LENGTH < 2 ^ 31 := fun i hi =>
    (Nat.mul_le_mul_right MAX_KV_LENGTH hi.le).trans_lt hfit
  induction rounds generalizing j with
  | zero =>
    rw [List.drop_eq_nil_of_le (show cs.length ≤ j from hr)]
    rfl
  | succ rounds ih =>
    unfold getLoop
    by_cases hj : j < cs.length
    · obtain ⟨hk, hv⟩ := records_getD cs hj
      rw [if_pos (by omega), kvIndex_eq (hindex _ (by omega)), kvIndex_eq (hindex _ (by omega)), hk, hv,
        List.drop_eq_getElem_cons hj]
      by_cases hc : cs[j].key = key
      · rw [List.find?_cons_of_pos (by simpa using hc)]
        exact if_pos ((strcmp_keyRecord _ hkey).mpr hc)
      · rw [List.find?_cons_of_neg (by simpa using hc), ← ih (j + 1) (by omega)]
        exact if_neg fun h => hc ((strcmp_keyRecord _ hkey).mp h)
    · rw [if_neg (by omega), List.drop_eq_nil_of_le (Nat.le_of_not_lt hj)]
      rfl

namespace Job
variable {J : Job}

theorem kv_store_me_eq {p : ℕ} (hp : p < J.size) : J.kv_store_me p = records (J.puts p) :=
  foldlM_put (J.ok p hp)

/-- the puts of the PEs from pe on -/
def putsFrom (J : Job) (pe : ℕ) : List PutCall := (List.range' pe (J.size - pe)).flatMap J.puts

theorem gathered_eq (J : Job) : J.gathered = records (J.putsFrom 0) := by
  unfold gathered putsFrom records
  rw [List.flatMap_assoc, Nat.sub_zero, ← List.range_eq_range']
  exact List.flatMap_congr fun p hp => kv_store_me_eq (List.mem_range.mp hp)

theorem length_flatMap_puts {m : ℕ} (l : List ℕ) (h : ∀ p ∈ l, (J.puts p).length = m) :
    (l.flatMap J.puts).length = l.length * m := by
  rw [List.length_flatMap, List.map_congr_left h, List.map_const', List.sum_replicate, smul_eq_mul]

/-- the puts of the PEs before pe are m for each -/
theorem drop_putsFrom {m pe : ℕ} (hpe : pe ≤ J.size) (h : ∀ p < J.size, (J.puts p).length = m) :
    (J.putsFrom 0).drop (pe * m) = J.putsFrom pe := by
  have hsplit : List.range' 0 (J.size - 0) = List.range' 0 pe ++ List.range' pe (J.size - pe) := by
    rw [Nat.sub_zero, ← Nat.add_sub_cancel' hpe, Nat.add_sub_cancel_left]
    have happ : List.range' 0 pe ++ List.range' (0 + pe) (J.size - pe) = List.range' 0 (pe + (J.size - pe)) :=
      List.range'_append_1
    rw [Nat.zero_add] at happ
    exact happ.symm
  have hlen : ((List.range' 0 pe).flatMap J.puts).length = pe * m := by
    rw [length_flatMap_puts (m := m), List.length_range']
    intro p hp
    rw [List.mem_range'_1] at hp
    exact h p (by omega)
  unfold putsFrom
  rw [hsplit, List.flatMap_append, ← hlen]
  exact List.drop_left

/-- the size of all records is an `int` -/
def Small (J : Job) (pe : ℕ) : Prop := (J.puts pe).length * 2 * MAX_KV_LENGTH * J.size < 2 ^ 31

theorem length_kv_store_me {p : ℕ} (hp : p < J.size) : (J.kv_store_me p).length = (J.puts p).length * 2 := by
  rw [kv_store_me_eq hp, records_length]

/-- the exchange works exactly then -/
theorem exchange_eq_ok {me : ℕ} (hme : me < J.size) {kv_store_all : List Record} :
    J.exchange me = .ok kv_store_all ↔ J.Small me ∧ J.gathered = kv_store_all := by
  unfold exchange Small
  rw [← length_kv_store_me hme]
  split_ifs with h1
  · -- a job of one PE
    have hlen := foldlM_put_length (J.ok me hme) (Nat.zero_le 21)
    have hsmall : (J.kv_store_me me).length * MAX_KV_LENGTH * J.size < 2 ^ 31 := by
      rw [h1, Nat.mul_one]
      exact (Nat.mul_le_mul_right MAX_KV_LENGTH hlen).trans_lt (by decide)
    have hone : J.gathered = J.kv_store_me me := by
      obtain rfl : me = 0 := by omega
      rw [gathered, h1]
      exact List.append_nil _
    rw [hone, and_iff_right hsmall, Except.ok.injEq]
  · rw [bind_eq_ok]
    simp only [checked_eq_ok]
    constructor
    · rintro ⟨x, ⟨hfit, -⟩, hall⟩
      exact ⟨by exact_mod_cast hfit.2, Except.ok.inj hall⟩
    · rintro ⟨hsmall, rfl⟩
      exact ⟨_, ⟨⟨by omega, by exact_mod_cast hsmall⟩, rfl⟩, rfl⟩

/-- **A lookup** finds the first put of the key by the PE, or else by the PEs behind it. -/
theorem get_eq {me pe : ℕ} (hme : me < J.size) (hpe : pe < J.size) (hsmall : J.Small me) {key : List UInt8}
    (hkey : ∀ x ∈ key, x ≠ 0) (valuelen : ℕ) :
    J.get me pe key valuelen =
      .ok (((J.firstPut pe key).or ((J.putsFrom (pe + 1)).find? fun c => decide (c.key = key))).map
        fun c => c.valueRecord.take valuelen) := by
  have hlen : ∀ p < J.size, (J.puts p).length = (J.puts me).length := fun p hp => J.same p hp me hme
  have hall : (J.putsFrom 0).length = J.size * (J.puts me).length := by
    unfold putsFrom
    rw [length_flatMap_puts (m := (J.puts me).length), List.length_range', Nat.sub_zero]
    intro p hp
    rw [List.mem_range'_1] at hp
    exact hlen p (by omega)
  have hkv := length_kv_store_me hme
  have hstop : (J.kv_store_me me).length * J.size = 2 * (J.putsFrom 0).length := by
    rw [hkv, hall]
    ring
  have hstart : pe * (J.kv_store_me me).length = 2 * (pe * (J.puts me).length) := by
    rw [hkv]
    ring
  have hfrom : J.putsFrom pe = J.puts pe ++ J.putsFrom (pe + 1) := by
    have hsucc : J.size - pe = J.size - (pe + 1) + 1 := by omega
    unfold putsFrom
    rw [hsucc, List.range'_succ, List.flatMap_cons]
  have hfit : 2 * (J.putsFrom 0).length * MAX_KV_LENGTH < 2 ^ 31 := by
    have hsmall : (J.puts me).length * 2 * MAX_KV_LENGTH * J.size < 2 ^ 31 := hsmall
    calc 2 * (J.putsFrom 0).length * MAX_KV_LENGTH = (J.puts me).length * 2 * MAX_KV_LENGTH * J.size := by
          rw [hall]
          ring
      _ < 2 ^ 31 := hsmall
  have hle : 2 * (J.putsFrom 0).length < 2 ^ 31 := (Nat.le_mul_of_pos_right _ (by decide)).trans_lt hfit
  have hle' : 2 * (pe * (J.puts me).length) < 2 ^ 31 := by
    have := Nat.mul_le_mul_right (J.puts me).length hpe.le
    omega
  unfold get MpiKvs.get
  rw [(exchange_eq_ok hme).mpr ⟨hsmall, rfl⟩, hstop, hstart, checked_nat hle, checked_nat hle', gathered_eq]
  simp only [bind, Except.bind, Int.toNat_natCast]
  rw [getLoop_eq _ hfit hkey _ _ (by omega), drop_putsFrom hpe.le hlen, hfrom, List.find?_append]
  simp only [pure, Except.pure, Option.map_map]
  rfl

/-- a lookup is right: it yields the value of the PE's first put of the key, and an error if there is none -/
def Right (J : Job) (me pe : ℕ) (key : List UInt8) : Prop :=
  ∀ valuelen, J.get me pe key valuelen = .ok ((J.firstPut pe key).map fun c => c.valueRecord.take valuelen)

/-- **Lookups in the store of the MPI runtime.** After the exchange a lookup by any PE yields the value of the PE's first put
of the key, and an error if it has put none, exactly if the size of all records is an `int`, and the PE has put the key or
no PE behind it has. -/
theorem get_right_iff (J : Job) (me pe : ℕ) (hme : me < J.size) (hpe : pe < J.size) (key : List UInt8)
    (hkey : ∀ x ∈ key, x ≠ 0) :
    J.Right me pe key ↔ (J.puts pe).length * 2 * MAX_KV_LENGTH * J.size < 2 ^ 31 ∧
      ((J.firstPut pe key).isSome = true ∨ ∀ q, pe < q → q < J.size → J.firstPut q key = none) := by
  have hbound : (J.puts pe).length * 2 * MAX_KV_LENGTH * J.size < 2 ^ 31 ↔ J.Small me := by
    rw [Small, J.same pe hpe me hme]
  have hnone : ((J.putsFrom (pe + 1)).find? fun c => decide (c.key = key)) = none ↔
      ∀ q, pe < q → q < J.size → J.firstPut q key = none := by
    unfold putsFrom firstPut
    simp only [List.find?_eq_none, List.mem_flatMap, List.mem_range'_1]
    constructor
    · intro h q hpq hq c hc
      exact h c ⟨q, by omega, hc⟩
    · rintro h c ⟨q, hq, hc⟩
      exact h q (by omega) (by omega) c hc
  rw [hbound]
  by_cases hsmall : J.Small me
  · rw [and_iff_right hsmall]
    unfold Right
    simp only [get_eq hme hpe hsmall hkey]
    cases hfirst : J.firstPut pe key with
    | some c => exact iff_of_true (fun _ => by rw [Option.some_or]) (.inl rfl)
    | none =>
      rw [Option.none_or, or_iff_right (by simp), ← hnone]
      constructor
      · intro h
        have h0 := Except.ok.inj (h 0)
        rw [Option.map_none, Option.map_eq_none_iff] at h0
        exact h0
      · intro h _
        rw [h]
  · -- the exchange cannot compute the size
    refine iff_of_false (fun h => hsmall ?_) fun h => hsmall h.1
    obtain ⟨_, hex, -⟩ := bind_eq_ok.mp (h 0)
    exact ((exchange_eq_ok hme).mp hex).1

/-- a key of one character and a value of one byte -/
def onePut (k v : UInt8) (hk : k ≠ 0) : PutCall :=
  ⟨[k], [v], fun _ => 0, fun _ => 0, by simpa using hk, show 1 < 512 by decide⟩

/-- both put their value under the key "a" -/
def sameKey : Job where
  size := 2
  puts p := [onePut 97 (if p = 0 then 5 else 7) (by decide)]
  kv_store_me p := records [onePut 97 (if p = 0 then 5 else 7) (by decide)]
  ok _ _ := rfl
  same _ _ _ _ := rfl

/-- each gets the value of the other -/
theorem get_right_same : sameKey.Right 1 0 [97] ∧ sameKey.get 1 0 [97] 1 = .ok (some [5]) ∧
    sameKey.Right 0 1 [97] ∧ sameKey.get 0 1 [97] 1 = .ok (some [7]) := by
  have h₀ : sameKey.Right 1 0 [97] :=
    (get_right_iff sameKey 1 0 (by decide) (by decide) [97] (by simp)).mpr ⟨by decide, .inl rfl⟩
  have h₁ : sameKey.Right 0 1 [97] :=
    (get_right_iff sameKey 0 1 (by decide) (by decide) [97] (by simp)).mpr ⟨by decide, .inl rfl⟩
  exact ⟨h₀, h₀ 1, h₁, h₁ 1⟩

/-- PE 0 puts 5 under the key "a", PE 1 puts 7 under the key "b" -/
def twoPuts : Job where
  size := 2
  puts p := [if p = 0 then onePut 97 5 (by decide) else onePut 98 7 (by decide)]
  kv_store_me p := records [if p = 0 then onePut 97 5 (by decide) else onePut 98 7 (by decide)]
  ok _ _ := by split <;> rfl
  same _ _ _ _ := rfl

/-- **Another PE's value.** The key "b" of PE 0, which has not put it, is found with PE 1. -/
theorem get_other_pe :
    twoPuts.firstPut 0 [98] = none ∧ twoPuts.get 0 0 [98] 1 = .ok (some [7]) ∧ ¬ twoPuts.Right 0 0 [98] := by
  have hnone : twoPuts.firstPut 0 [98] = none := rfl
  have hget : twoPuts.get 0 0 [98] 1 = .ok (some [7]) := by decide +kernel
  refine ⟨hnone, hget, fun h => ?_⟩
  have hright := h 1
  rw [hget, hnone] at hright
  exact absurd (Except.ok.inj hright) (by simp)

end Job

end SandiaShmem.Runtime.MpiKvs
