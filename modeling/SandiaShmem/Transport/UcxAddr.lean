/-
The exchange of the worker addresses of the UCX transport (`shmem_transport_init` and `shmem_transport_startup` in
`src/transport_ucx.c`).

A PE puts its address into the key-value store in chunks of `RUNTIME_ADDR_CHUNK` bytes under the keys "addrX", where X
is '0' and the number of the chunk, as a `char`. The others get the length and then the chunks. X is to stay within '0'
to 'z', for which the length is checked; `'z' - '0' * RUNTIME_ADDR_CHUNK` is a negative `int`, and as a `size_t` almost
2^64.

- `fetch_publish`: what is read is what was published, if no two chunks have the same key.
- `chunkKey_printable`: the keys of the first 75 chunks are the ones from '0' to 'z'.
- `exchange_iff`: for which lengths the check does its work.
-/
import SandiaShmem.Core.CInt
import SandiaShmem.Core.While

namespace SandiaShmem.Transport.UcxAddr

open CInt SandiaShmem.While

/-! ## Model -/

def RUNTIME_ADDR_CHUNK : ℕ := 400

/-- a key is a C string without its NUL -/
abbrev Key := List UInt8

/-- a value of the store: a `size_t`, or bytes -/
inductive Value where
  | size (n : ℕ)
  | bytes (b : List UInt8)
deriving DecidableEq, Repr

/-- what a PE has put -/
abbrev Store := Key → Option Value

/-- `shmem_runtime_put` -/
def runtimePut (s : Store) (key : Key) (value : Value) : Store := Function.update s key (some value)

inductive UcxError where
  /-- "UCX address too large (length %zu, chunk %d)" -/
  | tooLarge (len : ℕ)
  /-- "Runtime get of UCX address length failed (PE %d, ret %d)" -/
  | lenGet
  /-- "Runtime get of UCX address chunk %zu failed (chunk %d)" -/
  | chunkGet (chunk : ℕ)
deriving DecidableEq, Repr

/-- the characters up to the NUL -/
def cString (buf : List UInt8) : Key := buf.takeWhile fun x => decide (x ≠ 0)

/-- "addr" -/
def addrPrefix : Key := [97, 100, 100, 114]

/-- "addr_len" -/
def addrLenKey : Key := addrPrefix ++ [95, 108, 101, 110]

/-- "addrX" with X = '0' + chunk/RUNTIME_ADDR_CHUNK, which is cut to a `char` -/
def chunkKey (chunk : ℕ) : Key := cString (addrPrefix ++ [UInt8.ofNat (48 + chunk / RUNTIME_ADDR_CHUNK)])

/-- `'z' - '0' * RUNTIME_ADDR_CHUNK`, an `int` that is compared with a `size_t` -/
def sizeLimit : ℤ := uwrap 64 (122 - 48 * RUNTIME_ADDR_CHUNK)

/-- the bytes of a chunk -/
def slice (addr : List UInt8) (f : ℕ × ℕ) : List UInt8 := (addr.drop f.1).take f.2

/-- the part of `shmem_transport_init` that publishes the address -/
def publish (addr : List UInt8) (s : Store) : Except UcxError Store :=
  let len := addr.length
  -- limit the X in "addrX" to a range of printable ASCII characters
  if (len : ℤ) > sizeLimit then .error (.tooLarge len)
  else
    .ok ((pieces RUNTIME_ADDR_CHUNK len).foldl (fun s f => runtimePut s (chunkKey f.1) (.bytes (slice addr f)))
      (runtimePut s addrLenKey (.size len)))

/-- copying a value to an offset of a buffer -/
def copyTo (buf : ℕ → UInt8) (off : ℕ) (v : List UInt8) : ℕ → UInt8 :=
  fun j => if off ≤ j ∧ j < off + v.length then v.getD (j - off) 0 else buf j

/-- the part of `shmem_transport_startup` that gets the address of a PE; `junk` is what malloc returned -/
def fetch (s : Store) (junk : ℕ → UInt8) : Except UcxError (List UInt8) :=
  match s addrLenKey with
  | some (.size len) => do
    let addr_bytes ← (pieces RUNTIME_ADDR_CHUNK len).foldlM (fun buf f =>
      match s (chunkKey f.1) with
      | some (.bytes v) => .ok (copyTo buf f.1 (v.take f.2))
      | _ => .error (.chunkGet (f.1 / RUNTIME_ADDR_CHUNK))) junk
    return (List.range len).map addr_bytes
  | _ => .error .lenGet

/-- the keys of the chunks of an address, in order -/
def chunkKeys (len : ℕ) : List Key := (pieces RUNTIME_ADDR_CHUNK len).map fun f => chunkKey f.1

/-! ## The store -/

section
variable {κ ν β : Type*} [DecidableEq κ] (key : β → κ) (val : β → ν)

/-- puts under other keys are not seen -/
theorem foldl_update_of_notMem {l : List β} {k : κ} (hk : k ∉ l.map key) (s : κ → Option ν) :
    l.foldl (fun s b => Function.update s (key b) (some (val b))) s k = s k := by
  induction l generalizing s with
  | nil => rfl
  | cons b l ih =>
    rw [List.map_cons, List.mem_cons, not_or] at hk
    rw [List.foldl_cons, ih hk.2, Function.update_of_ne hk.1]

/-- under keys that are all different every value is found -/
theorem foldl_update_of_nodup {l : List β} (hnodup : (l.map key).Nodup) (s : κ → Option ν) {b : β} (hb : b ∈ l) :
    l.foldl (fun s b => Function.update s (key b) (some (val b))) s (key b) = some (val b) := by
  induction l generalizing s with
  | nil => exact absurd hb (by simp)
  | cons c l ih =>
    rw [List.map_cons, List.nodup_cons] at hnodup
    rw [List.foldl_cons]
    rcases List.mem_cons.mp hb with rfl | hb
    · rw [foldl_update_of_notMem key val hnodup.1, Function.update_self]
    · exact ih hnodup.2 _ hb

end

/-! ## The keys -/

theorem chunk_pos : 0 < RUNTIME_ADDR_CHUNK := by decide

/-- without a NUL the key has its five characters -/
theorem chunkKey_eq {i : ℕ} (hi : i ≤ 74) :
    chunkKey (i * RUNTIME_ADDR_CHUNK) = addrPrefix ++ [UInt8.ofNat (48 + i)] := by
  have hne : UInt8.ofNat (48 + i) ≠ 0 := by
    intro h
    have hval := congrArg UInt8.toNat h
    rw [UInt8.toNat_ofNat', Nat.mod_eq_of_lt (by omega)] at hval
    simp at hval
  rw [chunkKey, Nat.mul_div_cancel _ chunk_pos]
  generalize UInt8.ofNat (48 + i) = x at hne ⊢
  simp [cString, addrPrefix, hne]

/-- "addr" and a character from '0' to 'z' -/
def Printable (k : Key) : Prop := ∃ x : UInt8, 48 ≤ x.toNat ∧ x.toNat ≤ 122 ∧ k = addrPrefix ++ [x]

theorem chunkKey_printable {i : ℕ} (hi : i ≤ 74) : Printable (chunkKey (i * RUNTIME_ADDR_CHUNK)) := by
  refine ⟨UInt8.ofNat (48 + i), ?_, ?_, chunkKey_eq hi⟩ <;>
    · rw [UInt8.toNat_ofNat', Nat.mod_eq_of_lt (by omega)]
      omega

theorem chunkKey_inj {i j : ℕ} (hi : i ≤ 74) (hj : j ≤ 74)
    (h : chunkKey (i * RUNTIME_ADDR_CHUNK) = chunkKey (j * RUNTIME_ADDR_CHUNK)) : i = j := by
  rw [chunkKey_eq hi, chunkKey_eq hj, List.append_cancel_left_eq, List.cons.injEq] at h
  have hval := congrArg UInt8.toNat h.1
  rw [UInt8.toNat_ofNat', UInt8.toNat_ofNat', Nat.mod_eq_of_lt (by omega), Nat.mod_eq_of_lt (by omega)] at hval
  omega

/-- 75 chunks are the most that the keys are enough for -/
theorem numPieces_le_iff {len : ℕ} : numPieces RUNTIME_ADDR_CHUNK len ≤ 75 ↔ len ≤ 75 * RUNTIME_ADDR_CHUNK := by
  rw [← not_lt, lt_numPieces_iff chunk_pos, not_lt]

/-- no key is that of the length -/
theorem chunkKey_ne_addrLenKey (chunk : ℕ) : chunkKey chunk ≠ addrLenKey := by
  intro h
  have hlen : (chunkKey chunk).length ≤ 5 := (List.takeWhile_sublist _).length_le
  rw [h] at hlen
  exact absurd hlen (by decide)

/-! ## Reading the address back -/

/-- the chunks that have been copied are those of the address -/
def Copied (addr : List UInt8) (l : List (ℕ × ℕ)) (buf : ℕ → UInt8) : Prop :=
  ∀ f ∈ l, ∀ j, f.1 ≤ j → j < f.1 + f.2 → buf j = addr.getD j 0

theorem copyTo_slice {addr : List UInt8} {f : ℕ × ℕ} (hf : f.1 + f.2 ≤ addr.length) (buf : ℕ → UInt8) (j : ℕ) :
    copyTo buf f.1 ((slice addr f).take f.2) j =
      if f.1 ≤ j ∧ j < f.1 + f.2 then addr.getD j 0 else buf j := by
  have hlen : ((slice addr f).take f.2).length = f.2 := by
    simp only [slice, List.length_take, List.length_drop]
    omega
  unfold copyTo
  rw [hlen]
  split_ifs with hj
  · have hin : j - f.1 < f.2 := by omega
    simp only [slice, List.take_take, Nat.min_self, List.getD_eq_getElem?_getD, List.getElem?_take, List.getElem?_drop,
      hin, if_true]
    rw [show f.1 + (j - f.1) = j by omega]
  · rfl

/-- a loop that finds its chunks in the store copies all of them -/
theorem fetchLoop_spec {addr : List UInt8} {s : Store} {l : List (ℕ × ℕ)}
    (hs : ∀ f ∈ l, s (chunkKey f.1) = some (.bytes (slice addr f))) (hl : ∀ f ∈ l, f.1 + f.2 ≤ addr.length)
    (done : List (ℕ × ℕ)) (buf : ℕ → UInt8) (hdone : Copied addr done buf) :
    ∃ buf', l.foldlM (fun buf f => match s (chunkKey f.1) with
      | some (.bytes v) => (.ok (copyTo buf f.1 (v.take f.2)) : Except UcxError (ℕ → UInt8))
      | _ => .error (.chunkGet (f.1 / RUNTIME_ADDR_CHUNK))) buf = .ok buf' ∧ Copied addr (done ++ l) buf' := by
  induction l generalizing done buf with
  | nil => exact ⟨buf, rfl, by rwa [List.append_nil]⟩
  | cons f l ih =>
    have hf := hs f List.mem_cons_self
    have hnext : Copied addr (done ++ [f]) (copyTo buf f.1 ((slice addr f).take f.2)) := by
      intro g hg j h1 h2
      rw [copyTo_slice (hl f List.mem_cons_self)]
      split_ifs with hj
      · rfl
      · rcases List.mem_append.mp hg with hg | hg
        · exact hdone g hg j h1 h2
        · obtain rfl := List.mem_singleton.mp hg
          exact absurd ⟨h1, h2⟩ hj
    obtain ⟨buf', hloop, hcopied⟩ := ih (fun g hg => hs g (List.mem_cons_of_mem f hg))
      (fun g hg => hl g (List.mem_cons_of_mem f hg)) (done ++ [f]) _ hnext
    refine ⟨buf', ?_, by rwa [List.append_assoc] at hcopied⟩
    rw [List.foldlM_cons, hf]
    exact hloop

/-- **Round trip.** -/
theorem fetch_publish {addr : List UInt8} {s s' : Store} (hpub : publish addr s = .ok s')
    (hnodup : (chunkKeys addr.length).Nodup) (junk : ℕ → UInt8) : fetch s' junk = .ok addr := by
  unfold publish at hpub
  simp only at hpub
  split_ifs at hpub
  obtain rfl := Except.ok.inj hpub
  -- the length is found, and every chunk
  have hsize : ∀ s : Store, (pieces RUNTIME_ADDR_CHUNK addr.length).foldl
      (fun s f => runtimePut s (chunkKey f.1) (.bytes (slice addr f))) s addrLenKey = s addrLenKey := by
    intro s
    refine foldl_update_of_notMem (fun f : ℕ × ℕ => chunkKey f.1) (fun f => Value.bytes (slice addr f)) ?_ s
    intro hmem
    obtain ⟨f, -, hf⟩ := List.mem_map.mp hmem
    exact chunkKey_ne_addrLenKey _ hf
  have hchunk : ∀ s : Store, ∀ f ∈ pieces RUNTIME_ADDR_CHUNK addr.length,
      (pieces RUNTIME_ADDR_CHUNK addr.length).foldl
        (fun s f => runtimePut s (chunkKey f.1) (.bytes (slice addr f))) s (chunkKey f.1) =
        some (.bytes (slice addr f)) := fun s f hf =>
    foldl_update_of_nodup (fun f : ℕ × ℕ => chunkKey f.1) (fun f => Value.bytes (slice addr f)) hnodup s hf
  obtain ⟨buf, hloop, hcopied⟩ := fetchLoop_spec (hchunk (runtimePut s addrLenKey (.size addr.length)))
    (fun f hf => (pieces_bounds chunk_pos hf).2.2) [] junk (fun f hf => absurd hf (by simp))
  have hmap : (List.range addr.length).map buf = addr := by
    refine List.ext_getElem (by simp) fun j h1 h2 => ?_
    obtain ⟨f, hf, hle, hlt⟩ := pieces_cover chunk_pos h2
    rw [List.getElem_map, List.getElem_range, hcopied f hf j hle hlt, List.getD_eq_getElem?_getD,
      List.getElem?_eq_getElem h2, Option.getD_some]
  unfold fetch
  rw [hsize, runtimePut, Function.update_self]
  simp only
  rw [← runtimePut, hloop]
  show Except.ok ((List.range addr.length).map buf) = .ok addr
  rw [hmap]

/-! ## What the check is for -/

/-- an address that passes is published under different printable keys and read back, and one with more chunks than
there are keys does not pass -/
structure Exchanged (addr : List UInt8) (s : Store) : Prop where
  distinct : ∀ s', publish addr s = .ok s' → (chunkKeys addr.length).Nodup
  printable : ∀ s', publish addr s = .ok s' → ∀ k ∈ chunkKeys addr.length, Printable k
  read : ∀ s', publish addr s = .ok s' → ∀ junk, fetch s' junk = .ok addr
  refused : 75 < numPieces RUNTIME_ADDR_CHUNK addr.length → publish addr s = .error (.tooLarge addr.length)

/-- what the check refuses -/
theorem publish_eq_error (addr : List UInt8) (s : Store) :
    publish addr s = .error (.tooLarge addr.length) ↔ 2 ^ 64 - 19078 < addr.length := by
  have hlimit : sizeLimit = 2 ^ 64 - 19078 := by decide
  unfold publish
  simp only [hlimit]
  split_ifs with h
  · refine iff_of_true rfl ?_
    omega
  · refine iff_of_false (by simp) ?_
    omega

theorem exchange_iff (addr : List UInt8) (s : Store) :
    Exchanged addr s ↔ addr.length ≤ 75 * RUNTIME_ADDR_CHUNK ∨ 2 ^ 64 - 19078 < addr.length := by
  have hpass := publish_eq_error addr s
  rw [← numPieces_le_iff]
  constructor
  · intro h
    by_cases hle : numPieces RUNTIME_ADDR_CHUNK addr.length ≤ 75
    · exact .inl hle
    · exact .inr (hpass.mp (h.refused (not_le.mp hle)))
  · rintro (hle | hlarge)
    · have hindex : ∀ i < numPieces RUNTIME_ADDR_CHUNK addr.length, i ≤ 74 := fun i hi => by omega
      have hkeys : chunkKeys addr.length =
          (List.range (numPieces RUNTIME_ADDR_CHUNK addr.length)).map fun i => chunkKey (i * RUNTIME_ADDR_CHUNK) := by
        simp [chunkKeys, pieces, piece]
      have hnodup : (chunkKeys addr.length).Nodup := by
        rw [hkeys]
        refine List.nodup_range.map_on fun i hi j hj heq => ?_
        exact chunkKey_inj (hindex i (List.mem_range.mp hi)) (hindex j (List.mem_range.mp hj)) heq
      refine ⟨fun _ _ => hnodup, fun _ _ k hk => ?_, fun s' hs' junk => fetch_publish hs' hnodup junk, fun hgt => ?_⟩
      · rw [hkeys] at hk
        obtain ⟨i, hi, rfl⟩ := List.mem_map.mp hk
        exact chunkKey_printable (hindex i (List.mem_range.mp hi))
      · omega
    · have hrefused := hpass.mpr hlarge
      have hno : ∀ s', publish addr s ≠ .ok s' := by
        intro s' hs'
        rw [hrefused] at hs'
        exact absurd hs' (by simp)
      exact ⟨fun s' hs' => absurd hs' (hno s'), fun s' hs' => absurd hs' (hno s'), fun s' hs' => absurd hs' (hno s'),
        fun _ => hrefused⟩

/-- 30001 bytes are 76 chunks, and pass -/
theorem chunks_76_pass : ¬ Exchanged (List.replicate 30001 0) (fun _ => none) := by
  intro h
  have hlen : (List.replicate 30001 (0 : UInt8)).length = 30001 := List.length_replicate
  have hchunks : numPieces RUNTIME_ADDR_CHUNK 30001 = 76 := by decide
  have hrefused := (publish_eq_error _ _).mp (h.refused (by rw [hlen, hchunks]; omega))
  rw [hlen] at hrefused
  omega

end SandiaShmem.Transport.UcxAddr
