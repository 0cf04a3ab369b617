/-
The recursive-doubling reduction.

pow2_proc is the largest power of two that is at most PE_size. The ranks from pow2_proc on are extra peers: rank r sends
its data to rank r - pow2_proc first, and gets the result from it last. The ranks below pow2_proc exchange their
intermediate results, the i-th time with the rank that differs in bit i.

Every exchange is the same handshake between two ranks over one pSync word on each side. The lower rank announces that
its target is ready (1), the higher rank answers with its data and then 2, the lower rank answers with its data and
then 2. An extra peer and its partner do the same, with all exchanges in between the two answers. So every rank has a
list of links (`Link`), one for each word it uses, and all facts are about a link:

- `Sync`: what a word holds, by what has been delivered, and that who is past a wait got what it waited for.
- `Data`: what target and intermediate result hold.
- `recdbl_correct`: the result, agreement when op is only commutative, and that no value is overwritten before its use.
-/
import SandiaShmem.Core.Reduction
import SandiaShmem.Collectives.Calls

namespace SandiaShmem.Collectives.RecDbl

open OneSided OneSided.Machine SandiaShmem.Collectives

/-! ## Model -/

/-- the loop that computes pow2_proc and log2_proc -/
def pow2Loop : ℕ → ℕ → ℕ → ℕ → ℕ × ℕ
  | 0, _, pow2_proc, log2_proc => (pow2_proc, log2_proc)
  | fuel + 1, i, pow2_proc, log2_proc =>
    if i ≠ 1 then pow2Loop fuel (i / 2) (pow2_proc * 2) (log2_proc + 1) else (pow2_proc, log2_proc)

def psTargetReady : ℤ := 1
def psDataReady : ℤ := 2

/-- the index of `pSync_extra_peer` -/
def extraWord : ℕ := SHMEM_REDUCE_SYNC_SIZE - 2

abbrev Args := ReduceArgs

namespace Args
variable (G : Args)

def pow2Proc : ℕ := (pow2Loop G.A.PE_size (G.A.PE_size / 2) 2 1).1
def log2Proc : ℕ := (pow2Loop G.A.PE_size (G.A.PE_size / 2) 2 1).2

/-- the intermediate result goes to a peer, and then the word that says so; `current_target` is private -/
def sendData (w peer : ℕ) : List Instr :=
  [.putNb G.target (.priv 0) G.count peer, .putWait, .fence, .putScalar w psDataReady peer]

/-- `reduce_local` of the target into `current_target` -/
def reduceTarget : Instr := .reduceLocal (.sym G.target) (.priv 0) G.count

/-- iteration i of the pairwise exchange -/
def pairwise (my_pe i : ℕ) : List Instr :=
  let peer := G.A.pe (G.A.rank my_pe ^^^ 2 ^ i)
  if my_pe < peer then
    [.putScalar i psTargetReady peer, .waitUntil i .EQ psDataReady] ++ G.sendData i peer ++ [G.reduceTarget]
  else
    [.waitUntil i .EQ psTargetReady] ++ G.sendData i peer ++ [.waitUntil i .EQ psDataReady, G.reduceTarget]

/-- an extra peer -/
def extra (my_pe : ℕ) : List Instr :=
  [.waitUntil extraWord .EQ psTargetReady] ++ G.sendData extraWord (G.A.pe (G.A.rank my_pe - G.pow2Proc)) ++
    [.waitUntil extraWord .EQ psDataReady]

/-- the partner of an extra peer gets its data -/
def fromExtra (my_pe : ℕ) : List Instr :=
  if G.A.rank my_pe < G.A.PE_size - G.pow2Proc then
    [.putScalar extraWord psTargetReady (G.A.pe (G.A.rank my_pe + G.pow2Proc)), .waitUntil extraWord .EQ psDataReady,
      G.reduceTarget]
  else []

/-- and sends it the result -/
def toExtra (my_pe : ℕ) : List Instr :=
  if G.A.rank my_pe < G.A.PE_size - G.pow2Proc then G.sendData extraWord (G.A.pe (G.A.rank my_pe + G.pow2Proc)) else []

/-- `shmem_internal_op_to_all_recdbl_sw` on the PE my_pe -/
def opToAllRecdblSw (my_pe : ℕ) : List Instr :=
  if G.A.PE_size = 1 then
    if G.target ≠ G.source then [.memcpy (.sym G.target) (.sym G.source) G.count] else []
  else if G.count = 0 then []
  else
    [.memcpy (.priv 0) (.sym G.source) G.count] ++
      ((if G.pow2Proc ≤ G.A.rank my_pe then G.extra my_pe
        else G.fromExtra my_pe ++ ((List.range G.log2Proc).flatMap (G.pairwise my_pe) ++
          (G.toExtra my_pe ++ [.memcpy (.sym G.target) (.priv 0) G.count]))) ++
        (List.range SHMEM_REDUCE_SYNC_SIZE).map fun i => .store i SHMEM_SYNC_VALUE)

end Args

/-! ## Powers of two -/

theorem pow2Loop_eq (fuel i pow2_proc log2_proc : ℕ) (hi : 1 ≤ i) (hf : i ≤ fuel) :
    pow2Loop fuel i pow2_proc log2_proc = (pow2_proc * 2 ^ Nat.log 2 i, log2_proc + Nat.log 2 i) := by
  induction fuel generalizing i pow2_proc log2_proc with
  | zero => omega
  | succ fuel ih =>
    by_cases h1 : i = 1
    · subst h1
      simp [pow2Loop]
    · have hlog : Nat.log 2 i = Nat.log 2 (i / 2) + 1 := Nat.log_of_one_lt_of_le (by decide) (by omega)
      rw [pow2Loop, if_pos h1, ih (i / 2) _ _ (by omega) (by omega), hlog, Nat.pow_succ, Prod.mk.injEq]
      exact ⟨by ring, by ring⟩

namespace Args
variable {G : Args}

/-- two or more PEs, numbered by ints, reduce something -/
structure Valid (G : Args) : Prop where
  two : 2 ≤ G.A.PE_size
  int : G.A.PE_size < 2 ^ 31
  count : G.count ≠ 0

section
variable (hv : G.Valid)
include hv

theorem log2Proc_eq : G.log2Proc = Nat.log 2 G.A.PE_size := by
  have htwo := hv.two
  rw [log2Proc, pow2Loop_eq _ _ _ _ (by omega) (by omega)]
  have : Nat.log 2 G.A.PE_size = Nat.log 2 (G.A.PE_size / 2) + 1 := Nat.log_of_one_lt_of_le (by decide) htwo
  simp only
  omega

theorem pow2Proc_eq : G.pow2Proc = 2 ^ G.log2Proc := by
  have htwo := hv.two
  rw [pow2Proc, log2Proc, pow2Loop_eq _ _ _ _ (by omega) (by omega)]
  simp only
  ring

theorem pow2Proc_le : G.pow2Proc ≤ G.A.PE_size := by
  have htwo := hv.two
  rw [pow2Proc_eq hv, log2Proc_eq hv]
  exact Nat.pow_log_le_self 2 (by omega)

theorem lt_two_mul_pow2Proc : G.A.PE_size < 2 * G.pow2Proc := by
  rw [pow2Proc_eq hv, log2Proc_eq hv, ← Nat.pow_succ']
  exact Nat.lt_pow_succ_log_self (by decide) _

/-- the assertion on log2_proc holds, and no exchange uses the word of the extra peers -/
theorem log2Proc_lt : G.log2Proc < extraWord := by
  have htwo := hv.two
  have hlog : Nat.log 2 G.A.PE_size < 31 := Nat.log_lt_of_lt_pow (by omega) hv.int
  have hword : extraWord = 33 := by decide
  rw [log2Proc_eq hv]
  omega

end

/-! ## Links -/

/-- rank r has an extra peer -/
abbrev HasExtra (G : Args) (r : ℕ) : Prop := r < G.A.PE_size - G.pow2Proc

/-- rank r uses word w -/
def Link (G : Args) (r w : ℕ) : Prop :=
  (w < G.log2Proc ∧ r < G.pow2Proc) ∨ (w = extraWord ∧ r < G.A.PE_size ∧ (G.pow2Proc ≤ r ∨ G.HasExtra r))

/-- with whom -/
def partner (G : Args) (r w : ℕ) : ℕ :=
  if w = extraWord then if G.pow2Proc ≤ r then r - G.pow2Proc else r + G.pow2Proc else r ^^^ 2 ^ w

section
variable (hv : G.Valid)
include hv

theorem Link.lt {r w : ℕ} (h : G.Link r w) : r < G.A.PE_size := by
  have := pow2Proc_le hv
  rcases h with ⟨-, h⟩ | ⟨-, h, -⟩ <;> omega

theorem partner_of_lt {r w : ℕ} (h : w < G.log2Proc) : G.partner r w = r ^^^ 2 ^ w := by
  have := log2Proc_lt hv
  rw [partner, if_neg (by omega)]

theorem xor_lt {r w : ℕ} (h : w < G.log2Proc) (hr : r < G.pow2Proc) : r ^^^ 2 ^ w < G.pow2Proc := by
  rw [pow2Proc_eq hv] at hr ⊢
  exact Nat.xor_lt_two_pow hr (Nat.pow_lt_pow_right (by decide) h)

/-- the partner uses the same word -/
theorem Link.partner {r w : ℕ} (h : G.Link r w) : G.Link (G.partner r w) w := by
  have h1 := pow2Proc_le hv
  have h2 := lt_two_mul_pow2Proc hv
  rcases h with ⟨hw, hr⟩ | ⟨rfl, hr, hx⟩
  · rw [partner_of_lt hv hw]
    exact Or.inl ⟨hw, xor_lt hv hw hr⟩
  · refine Or.inr ⟨rfl, ?_⟩
    unfold HasExtra at hx ⊢
    rw [Args.partner, if_pos rfl]
    split_ifs <;> omega

theorem partner_partner {r w : ℕ} (h : G.Link r w) : G.partner (G.partner r w) w = r := by
  have h2 := lt_two_mul_pow2Proc hv
  rcases h with ⟨hw, hr⟩ | ⟨rfl, hr, hx⟩
  · rw [partner_of_lt hv hw, partner_of_lt hv hw, Nat.xor_assoc, Nat.xor_self, Nat.xor_zero]
  · unfold HasExtra at hx
    simp only [Args.partner, if_true]
    split_ifs <;> omega

theorem partner_ne {r w : ℕ} (h : G.Link r w) : G.partner r w ≠ r := by
  rcases h with ⟨hw, hr⟩ | ⟨rfl, hr, hx⟩
  · rw [partner_of_lt hv hw]
    intro heq
    have hzero := congrArg (r ^^^ ·) heq
    simp at hzero
  · have hpos : 0 < G.pow2Proc := by rw [pow2Proc_eq hv]; positivity
    simp only [Args.partner, if_true]
    split_ifs <;> omega

/-- a rank has at most one link with another rank -/
theorem partner_inj {r w w' : ℕ} (h : G.Link r w) (h' : G.Link r w') (heq : G.partner r w = G.partner r w') : w = w' := by
  -- exchanges stay below pow2_proc, the extra exchange crosses it
  have hcross : ∀ u, u < G.log2Proc → r < G.pow2Proc → G.partner r u ≠ G.partner r extraWord := by
    intro u hu hr heq
    have := xor_lt hv hu hr
    rw [partner_of_lt hv hu, Args.partner, if_pos rfl, if_neg (by omega)] at heq
    omega
  rcases h with ⟨hw, hr⟩ | ⟨rfl, -, -⟩ <;> rcases h' with ⟨hw', hr'⟩ | ⟨rfl, -, -⟩
  · rw [partner_of_lt hv hw, partner_of_lt hv hw'] at heq
    have hpow : 2 ^ w = 2 ^ w' := by
      have := congrArg (r ^^^ ·) heq
      simpa [← Nat.xor_assoc] using this
    exact Nat.pow_right_injective (le_refl 2) hpow
  · exact absurd heq (hcross w hw hr)
  · exact absurd heq.symm (hcross w' hw' hr')
  · rfl

end

/-! ## Positions -/

/-- where the exchanges start -/
def base (G : Args) (r : ℕ) : ℕ := if G.HasExtra r then 4 else 1

/-- where the lower rank announces its target and the higher rank waits for that -/
def firstPos (G : Args) (r w : ℕ) : ℕ := if w = extraWord then 1 else G.base r + 7 * w

/-- where the rank waits for data -/
def waitPos (G : Args) (r w : ℕ) : ℕ :=
  if w = extraWord then if G.pow2Proc ≤ r then 6 else 2
  else G.base r + 7 * w + if r < G.partner r w then 1 else 5

/-- where it sends its data -/
def dataPos (G : Args) (r w : ℕ) : ℕ :=
  if w = extraWord then if G.pow2Proc ≤ r then 2 else G.base r + 7 * G.log2Proc
  else G.base r + 7 * w + if r < G.partner r w then 2 else 1

/-- where it reduces the data it got -/
def redPos (G : Args) (r w : ℕ) : ℕ := if w = extraWord then 3 else G.base r + 7 * w + 6

/-- where it copies the result to its target -/
def lastPos (G : Args) (r : ℕ) : ℕ := G.base r + 7 * G.log2Proc + if G.HasExtra r then 4 else 0

/-- where it clears word w -/
def storePos (G : Args) (r w : ℕ) : ℕ := (if G.pow2Proc ≤ r then 7 else G.lastPos r + 1) + w

/-- what stands where in the code of rank r -/
inductive CodeAt (G : Args) (r : ℕ) : ℕ → Instr → Prop
  | copy : CodeAt G r 0 (.memcpy (.priv 0) (.sym G.source) G.count)
  | ready (w : ℕ) (hl : G.Link r w) (hlow : r < G.partner r w) :
    CodeAt G r (G.firstPos r w) (.putScalar w psTargetReady (G.A.pe (G.partner r w)))
  | waitReady (w : ℕ) (hl : G.Link r w) (hhigh : G.partner r w < r) :
    CodeAt G r (G.firstPos r w) (.waitUntil w .EQ psTargetReady)
  | waitData (w : ℕ) (hl : G.Link r w) : CodeAt G r (G.waitPos r w) (.waitUntil w .EQ psDataReady)
  | data (w : ℕ) (hl : G.Link r w) :
    CodeAt G r (G.dataPos r w) (.putNb G.target (.priv 0) G.count (G.A.pe (G.partner r w)))
  | putWait (w : ℕ) (hl : G.Link r w) : CodeAt G r (G.dataPos r w + 1) .putWait
  | fence (w : ℕ) (hl : G.Link r w) : CodeAt G r (G.dataPos r w + 2) .fence
  | ack (w : ℕ) (hl : G.Link r w) :
    CodeAt G r (G.dataPos r w + 3) (.putScalar w psDataReady (G.A.pe (G.partner r w)))
  | reduce (w : ℕ) (hl : G.Link r w) (hr : r < G.pow2Proc) : CodeAt G r (G.redPos r w) G.reduceTarget
  | last (hr : r < G.pow2Proc) : CodeAt G r (G.lastPos r) (.memcpy (.sym G.target) (.priv 0) G.count)
  | store (w : ℕ) (hw : w < SHMEM_REDUCE_SYNC_SIZE) : CodeAt G r (G.storePos r w) (.store w SHMEM_SYNC_VALUE)

theorem CodeAt.at_pos {r t t' : ℕ} {ins : Instr} (h : G.CodeAt r t ins) (heq : t = t') : G.CodeAt r t' ins := heq ▸ h

theorem length_pairwise (G : Args) (my_pe i : ℕ) : (G.pairwise my_pe i).length = 7 := by
  unfold pairwise
  dsimp only
  split_ifs <;> rfl

theorem length_fromExtra (G : Args) (r : ℕ) : (G.fromExtra (G.A.pe r)).length + 1 = G.base r := by
  by_cases h : G.HasExtra r
  · rw [fromExtra, G.A.rank_pe, if_pos h, base, if_pos h]
    rfl
  · rw [fromExtra, G.A.rank_pe, if_neg h, base, if_neg h]
    rfl

theorem length_toExtra (G : Args) (r : ℕ) : G.base r + 7 * G.log2Proc + (G.toExtra (G.A.pe r)).length = G.lastPos r := by
  by_cases h : G.HasExtra r
  · rw [toExtra, G.A.rank_pe, if_pos h, lastPos, if_pos h]
    rfl
  · rw [toExtra, G.A.rank_pe, if_neg h, lastPos, if_neg h]
    rfl

theorem pairwise_low {r i : ℕ} (h : r < r ^^^ 2 ^ i) : G.pairwise (G.A.pe r) i =
    [.putScalar i psTargetReady (G.A.pe (r ^^^ 2 ^ i)), .waitUntil i .EQ psDataReady,
      .putNb G.target (.priv 0) G.count (G.A.pe (r ^^^ 2 ^ i)), .putWait, .fence,
      .putScalar i psDataReady (G.A.pe (r ^^^ 2 ^ i)), G.reduceTarget] := by
  unfold pairwise
  dsimp only
  rw [G.A.rank_pe, if_pos (G.A.pe_lt_iff.mpr h)]
  rfl

theorem pairwise_high {r i : ℕ} (h : ¬ r < r ^^^ 2 ^ i) : G.pairwise (G.A.pe r) i =
    [.waitUntil i .EQ psTargetReady, .putNb G.target (.priv 0) G.count (G.A.pe (r ^^^ 2 ^ i)), .putWait, .fence,
      .putScalar i psDataReady (G.A.pe (r ^^^ 2 ^ i)), .waitUntil i .EQ psDataReady, G.reduceTarget] := by
  unfold pairwise
  dsimp only
  rw [G.A.rank_pe, if_neg (fun hlt => h (G.A.pe_lt_iff.mp hlt))]
  rfl

/-- the stores at the end -/
def stores : List Instr := (List.range SHMEM_REDUCE_SYNC_SIZE).map fun i => .store i SHMEM_SYNC_VALUE

theorem getElem_stores {w : ℕ} (hw : w < SHMEM_REDUCE_SYNC_SIZE) : stores[w]? = some (.store w SHMEM_SYNC_VALUE) := by
  simp [stores, hw]

theorem length_flatMap_pairwise (G : Args) (my_pe : ℕ) :
    ((List.range G.log2Proc).flatMap (G.pairwise my_pe)).length = 7 * G.log2Proc := by
  simp [List.length_flatMap, length_pairwise, Nat.mul_comm]

section
variable (hv : G.Valid)
include hv

theorem code_extra {r : ℕ} (hr : G.pow2Proc ≤ r) : G.opToAllRecdblSw (G.A.pe r) =
    [.memcpy (.priv 0) (.sym G.source) G.count, .waitUntil extraWord .EQ psTargetReady,
      .putNb G.target (.priv 0) G.count (G.A.pe (r - G.pow2Proc)), .putWait, .fence,
      .putScalar extraWord psDataReady (G.A.pe (r - G.pow2Proc)), .waitUntil extraWord .EQ psDataReady] ++ stores := by
  have htwo := hv.two
  rw [opToAllRecdblSw, if_neg (by omega), if_neg hv.count, G.A.rank_pe, if_pos hr, extra, G.A.rank_pe]
  rfl

theorem code_low {r : ℕ} (hr : r < G.pow2Proc) : G.opToAllRecdblSw (G.A.pe r) =
    [.memcpy (.priv 0) (.sym G.source) G.count] ++ (G.fromExtra (G.A.pe r) ++
      ((List.range G.log2Proc).flatMap (G.pairwise (G.A.pe r)) ++
        (G.toExtra (G.A.pe r) ++ (.memcpy (.sym G.target) (.priv 0) G.count :: stores)))) := by
  have htwo := hv.two
  rw [opToAllRecdblSw, if_neg (by omega), if_neg hv.count, G.A.rank_pe, if_neg (by omega)]
  simp [stores]

theorem getElem_fromExtra {r x : ℕ} (hr : r < G.pow2Proc) (hx : x + 1 < G.base r) :
    (G.opToAllRecdblSw (G.A.pe r))[x + 1]? = (G.fromExtra (G.A.pe r))[x]? := by
  have hlen := length_fromExtra G r
  rw [code_low hv hr, List.getElem?_append_right (by simp), List.getElem?_append_left (by simp; omega)]
  rfl

theorem getElem_pairwise {r i b : ℕ} (hr : r < G.pow2Proc) (hi : i < G.log2Proc) (hb : b < 7) :
    (G.opToAllRecdblSw (G.A.pe r))[G.base r + 7 * i + b]? = (G.pairwise (G.A.pe r) i)[b]? := by
  have hlen := length_fromExtra G r
  have hlen2 := length_flatMap_pairwise G (G.A.pe r)
  rw [code_low hv hr, List.getElem?_append_right (by simp; omega), List.getElem?_append_right (by simp; omega),
    List.getElem?_append_left (by simp only [List.length_singleton]; omega),
    getElem?_flatMap_range _ (by decide) (G.length_pairwise (G.A.pe r))]
  have hpos : G.base r + 7 * i + b - [Instr.memcpy (.priv 0) (.sym G.source) G.count].length -
      (G.fromExtra (G.A.pe r)).length = 7 * i + b := by
    simp only [List.length_singleton]
    omega
  rw [hpos, if_pos (by omega), show (7 * i + b) / 7 = i by omega, show (7 * i + b) % 7 = b by omega]

theorem getElem_behind {r : ℕ} (hr : r < G.pow2Proc) (x : ℕ) :
    (G.opToAllRecdblSw (G.A.pe r))[G.base r + 7 * G.log2Proc + x]? =
      (G.toExtra (G.A.pe r) ++ (.memcpy (.sym G.target) (.priv 0) G.count :: stores))[x]? := by
  have hlen := length_fromExtra G r
  have hlen2 := length_flatMap_pairwise G (G.A.pe r)
  rw [code_low hv hr, List.getElem?_append_right (by simp; omega), List.getElem?_append_right (by simp; omega),
    List.getElem?_append_right (by simp only [List.length_singleton]; omega), hlen2]
  congr 1
  simp only [List.length_singleton]
  omega

theorem getElem_last {r : ℕ} (hr : r < G.pow2Proc) (x : ℕ) :
    (G.opToAllRecdblSw (G.A.pe r))[G.lastPos r + x]? =
      ((.memcpy (.sym G.target) (.priv 0) G.count :: stores) : List Instr)[x]? := by
  have hlen := length_toExtra G r
  rw [← hlen, Nat.add_assoc, getElem_behind hv hr, List.getElem?_append_right (by omega)]
  congr 1
  omega

theorem length_code {r : ℕ} : (G.opToAllRecdblSw (G.A.pe r)).length = G.storePos r SHMEM_REDUCE_SYNC_SIZE := by
  have hst : stores.length = SHMEM_REDUCE_SYNC_SIZE := by simp [stores]
  unfold storePos
  split_ifs with hr
  · rw [code_extra hv hr, List.length_append, hst]
    rfl
  · have h1 := length_fromExtra G r
    have h2 := length_flatMap_pairwise G (G.A.pe r)
    have h3 := length_toExtra G r
    rw [code_low hv (by omega)]
    simp only [List.length_append, List.length_cons, List.length_nil, hst]
    omega

/-- an extra link of a rank below pow2_proc -/
theorem Link.hasExtra {r : ℕ} (hl : G.Link r extraWord) (hr : r < G.pow2Proc) : G.HasExtra r := by
  have hw := log2Proc_lt hv
  rcases hl with ⟨h, -⟩ | ⟨-, -, h⟩
  · omega
  · exact h.resolve_left (by omega)

/-- a link is an exchange, the one of an extra peer, or the one with an extra peer -/
theorem Link.cases {r w : ℕ} (hl : G.Link r w) :
    (w < G.log2Proc ∧ w ≠ extraWord ∧ r < G.pow2Proc ∧ G.partner r w = r ^^^ 2 ^ w) ∨
    (w = extraWord ∧ G.pow2Proc ≤ r ∧ r < G.A.PE_size ∧ G.partner r w = r - G.pow2Proc) ∨
    (w = extraWord ∧ r < G.pow2Proc ∧ G.HasExtra r ∧ G.partner r w = r + G.pow2Proc) := by
  have hw := log2Proc_lt hv
  rcases hl with ⟨h1, h2⟩ | ⟨rfl, h1, h2⟩
  · exact Or.inl ⟨h1, by omega, h2, partner_of_lt hv h1⟩
  · by_cases hr : G.pow2Proc ≤ r
    · exact Or.inr (Or.inl ⟨rfl, hr, h1, by simp [Args.partner, hr]⟩)
    · exact Or.inr (Or.inr ⟨rfl, by omega, h2.resolve_left hr, by simp [Args.partner, hr]⟩)

theorem getElem_send {r w b : ℕ} (hl : G.Link r w) (hb : b < 4) :
    (G.opToAllRecdblSw (G.A.pe r))[G.dataPos r w + b]? = (G.sendData w (G.A.pe (G.partner r w)))[b]? := by
  rcases hl.cases hv with ⟨hw, hx, hr, hp⟩ | ⟨rfl, hr, -, hp⟩ | ⟨rfl, hr, he, hp⟩
  · rw [dataPos, if_neg hx, hp]
    by_cases hlow : r < r ^^^ 2 ^ w
    · rw [if_pos hlow, Nat.add_assoc, getElem_pairwise hv hr hw (by omega), pairwise_low hlow]
      match b, hb with
      | 0, _ => rfl
      | 1, _ => rfl
      | 2, _ => rfl
      | 3, _ => rfl
    · rw [if_neg hlow, Nat.add_assoc, getElem_pairwise hv hr hw (by omega), pairwise_high hlow]
      match b, hb with
      | 0, _ => rfl
      | 1, _ => rfl
      | 2, _ => rfl
      | 3, _ => rfl
  · rw [dataPos, if_pos rfl, if_pos hr, hp, code_extra hv hr]
    match b, hb with
    | 0, _ => rfl
    | 1, _ => rfl
    | 2, _ => rfl
    | 3, _ => rfl
  · rw [dataPos, if_pos rfl, if_neg (by omega), hp, getElem_behind hv hr, toExtra, G.A.rank_pe, if_pos he,
      List.getElem?_append_left hb]

theorem getElem_wait {r w : ℕ} (hl : G.Link r w) :
    (G.opToAllRecdblSw (G.A.pe r))[G.waitPos r w]? = some (.waitUntil w .EQ psDataReady) := by
  rcases hl.cases hv with ⟨hw, hx, hr, hp⟩ | ⟨rfl, hr, -, hp⟩ | ⟨rfl, hr, he, hp⟩
  · rw [waitPos, if_neg hx, hp]
    by_cases hlow : r < r ^^^ 2 ^ w
    · rw [if_pos hlow, getElem_pairwise hv hr hw (by omega), pairwise_low hlow]
      rfl
    · rw [if_neg hlow, getElem_pairwise hv hr hw (by omega), pairwise_high hlow]
      rfl
  · rw [waitPos, if_pos rfl, if_pos hr, code_extra hv hr]
    rfl
  · rw [waitPos, if_pos rfl, if_neg (by omega), getElem_fromExtra hv hr (by simp [base, he]), fromExtra, G.A.rank_pe,
      if_pos he]
    rfl

theorem getElem_reduce {r w : ℕ} (hl : G.Link r w) (hr : r < G.pow2Proc) :
    (G.opToAllRecdblSw (G.A.pe r))[G.redPos r w]? = some G.reduceTarget := by
  rcases hl.cases hv with ⟨hw, hx, -, -⟩ | ⟨-, hr', -⟩ | ⟨rfl, -, he, -⟩
  · rw [redPos, if_neg hx, getElem_pairwise hv hr hw (by omega)]
    by_cases hlow : r < r ^^^ 2 ^ w
    · rw [pairwise_low hlow]
      rfl
    · rw [pairwise_high hlow]
      rfl
  · omega
  · rw [redPos, if_pos rfl, getElem_fromExtra hv hr (by simp [base, he]), fromExtra, G.A.rank_pe, if_pos he]
    rfl

theorem getElem_store {r w : ℕ} (hw : w < SHMEM_REDUCE_SYNC_SIZE) :
    (G.opToAllRecdblSw (G.A.pe r))[G.storePos r w]? = some (.store w SHMEM_SYNC_VALUE) := by
  unfold storePos
  split_ifs with hr
  · rw [code_extra hv hr, List.getElem?_append_right (by simp)]
    simp only [List.length_cons, List.length_nil, Nat.zero_add, Nat.reduceAdd, Nat.add_sub_cancel_left]
    exact getElem_stores hw
  · rw [Nat.add_assoc, getElem_last hv (by omega), Nat.add_comm 1 w, List.getElem?_cons_succ]
    exact getElem_stores hw

/-- `CodeAt` says what is in the code -/
theorem CodeAt.getElem {r t : ℕ} {ins : Instr} (h : G.CodeAt r t ins) : (G.opToAllRecdblSw (G.A.pe r))[t]? = some ins := by
  cases h with
  | copy =>
    by_cases hr : G.pow2Proc ≤ r
    · rw [code_extra hv hr]
      rfl
    · rw [code_low hv (by omega)]
      rfl
  | ready w hl hlow =>
    rcases hl.cases hv with ⟨hw, hx, hr, hp⟩ | ⟨rfl, hr, -, hp⟩ | ⟨rfl, hr, he, hp⟩
    · rw [hp] at hlow ⊢
      rw [firstPos, if_neg hx]
      exact (getElem_pairwise (b := 0) hv hr hw (by omega)).trans (by rw [pairwise_low hlow]; rfl)
    · omega
    · rw [hp, firstPos, if_pos rfl, getElem_fromExtra hv hr (by simp [base, he]), fromExtra, G.A.rank_pe, if_pos he]
      rfl
  | waitReady w hl hhigh =>
    rcases hl.cases hv with ⟨hw, hx, hr, hp⟩ | ⟨rfl, hr, -, hp⟩ | ⟨rfl, hr, he, hp⟩
    · rw [hp] at hhigh
      rw [firstPos, if_neg hx]
      exact (getElem_pairwise (b := 0) hv hr hw (by omega)).trans (by rw [pairwise_high (by omega)]; rfl)
    · rw [firstPos, if_pos rfl, code_extra hv hr]
      rfl
    · omega
  | waitData w hl => exact getElem_wait hv hl
  | data w hl => exact getElem_send (b := 0) hv hl (by decide)
  | putWait w hl => exact getElem_send (b := 1) hv hl (by decide)
  | fence w hl => exact getElem_send (b := 2) hv hl (by decide)
  | ack w hl => exact getElem_send (b := 3) hv hl (by decide)
  | reduce w hl hr => exact getElem_reduce hv hl hr
  | last hr => exact getElem_last hv hr 0
  | store w hw => exact getElem_store hv hw

/-- instruction b of exchange i -/
theorem codeAt_pairwise {r i b : ℕ} {ins : Instr} (hr : r < G.pow2Proc) (hi : i < G.log2Proc) (hb : b < 7)
    (h : (G.pairwise (G.A.pe r) i)[b]? = some ins) : G.CodeAt r (G.base r + 7 * i + b) ins := by
  have hx : i ≠ extraWord := by have := log2Proc_lt hv; omega
  have hl : G.Link r i := Or.inl ⟨hi, hr⟩
  have hp := partner_of_lt (r := r) hv hi
  have hne := partner_ne hv hl
  have hfirst : G.firstPos r i = G.base r + 7 * i := by rw [firstPos, if_neg hx]
  have hred : G.redPos r i = G.base r + 7 * i + 6 := by rw [redPos, if_neg hx]
  by_cases hlow : r < r ^^^ 2 ^ i
  · have hwait : G.waitPos r i = G.base r + 7 * i + 1 := by rw [waitPos, if_neg hx, hp, if_pos hlow]
    have hdata : G.dataPos r i = G.base r + 7 * i + 2 := by rw [dataPos, if_neg hx, hp, if_pos hlow]
    rw [pairwise_low hlow, ← hp] at h
    match b, hb with
    | 0, _ => simp at h; subst h; exact .at_pos (.ready i hl (hp ▸ hlow)) (by omega)
    | 1, _ => simp at h; subst h; exact .at_pos (.waitData i hl) (by omega)
    | 2, _ => simp at h; subst h; exact .at_pos (.data i hl) (by omega)
    | 3, _ => simp at h; subst h; exact .at_pos (.putWait i hl) (by omega)
    | 4, _ => simp at h; subst h; exact .at_pos (.fence i hl) (by omega)
    | 5, _ => simp at h; subst h; exact .at_pos (.ack i hl) (by omega)
    | 6, _ => simp at h; subst h; exact .at_pos (.reduce i hl hr) (by omega)
  · have hwait : G.waitPos r i = G.base r + 7 * i + 5 := by rw [waitPos, if_neg hx, hp, if_neg hlow]
    have hdata : G.dataPos r i = G.base r + 7 * i + 1 := by rw [dataPos, if_neg hx, hp, if_neg hlow]
    rw [pairwise_high hlow, ← hp] at h
    match b, hb with
    | 0, _ => simp at h; subst h; exact .at_pos (.waitReady i hl (by omega)) (by omega)
    | 1, _ => simp at h; subst h; exact .at_pos (.data i hl) (by omega)
    | 2, _ => simp at h; subst h; exact .at_pos (.putWait i hl) (by omega)
    | 3, _ => simp at h; subst h; exact .at_pos (.fence i hl) (by omega)
    | 4, _ => simp at h; subst h; exact .at_pos (.ack i hl) (by omega)
    | 5, _ => simp at h; subst h; exact .at_pos (.waitData i hl) (by omega)
    | 6, _ => simp at h; subst h; exact .at_pos (.reduce i hl hr) (by omega)

/-- the code of an extra peer, instruction by instruction -/
theorem codeAt_extra {r t : ℕ} {ins : Instr} (hn : r < G.A.PE_size) (hr : G.pow2Proc ≤ r)
    (h : (G.opToAllRecdblSw (G.A.pe r))[t]? = some ins) : G.CodeAt r t ins := by
  have hl : G.Link r extraWord := Or.inr ⟨rfl, hn, Or.inl hr⟩
  have hp : G.partner r extraWord = r - G.pow2Proc := by simp [Args.partner, hr]
  have hlow : G.partner r extraWord < r := by
    have := partner_ne hv hl
    omega
  have hfirst : G.firstPos r extraWord = 1 := by simp [firstPos]
  have hdata : G.dataPos r extraWord = 2 := by simp [dataPos, hr]
  have hwait : G.waitPos r extraWord = 6 := by simp [waitPos, hr]
  rcases Nat.lt_or_ge t 7 with ht | ht
  · rw [code_extra hv hr, ← hp] at h
    match t, ht with
    | 0, _ => simp at h; subst h; exact .copy
    | 1, _ => simp at h; subst h; exact .at_pos (.waitReady extraWord hl hlow) (by omega)
    | 2, _ => simp at h; subst h; exact .at_pos (.data extraWord hl) (by omega)
    | 3, _ => simp at h; subst h; exact .at_pos (.putWait extraWord hl) (by omega)
    | 4, _ => simp at h; subst h; exact .at_pos (.fence extraWord hl) (by omega)
    | 5, _ => simp at h; subst h; exact .at_pos (.ack extraWord hl) (by omega)
    | 6, _ => simp at h; subst h; exact .at_pos (.waitData extraWord hl) (by omega)
  · obtain ⟨w, rfl⟩ : ∃ w, t = G.storePos r w := ⟨t - 7, by simp only [storePos, if_pos hr]; omega⟩
    have hw : w < SHMEM_REDUCE_SYNC_SIZE := by
      have hlt := (List.getElem?_eq_some_iff.mp h).1
      rw [length_code hv] at hlt
      unfold storePos at hlt
      omega
    rw [getElem_store hv hw, Option.some.injEq] at h
    subst h
    exact .store w hw

/-- the code of a rank below pow2_proc, instruction by instruction -/
theorem codeAt_low {r t : ℕ} {ins : Instr} (hr : r < G.pow2Proc)
    (h : (G.opToAllRecdblSw (G.A.pe r))[t]? = some ins) : G.CodeAt r t ins := by
  have hle := pow2Proc_le hv
  -- the link with the extra peer
  have hl : G.HasExtra r → G.Link r extraWord := fun he => Or.inr ⟨rfl, by omega, Or.inr he⟩
  have hp : G.partner r extraWord = r + G.pow2Proc := by simp [Args.partner, show ¬ G.pow2Proc ≤ r by omega]
  have hfirst : G.firstPos r extraWord = 1 := by simp [firstPos]
  have hwait : G.waitPos r extraWord = 2 := by simp [waitPos, show ¬ G.pow2Proc ≤ r by omega]
  have hred : G.redPos r extraWord = 3 := by simp [redPos]
  have hdata : G.dataPos r extraWord = G.base r + 7 * G.log2Proc := by simp [dataPos, show ¬ G.pow2Proc ≤ r by omega]
  have hto := length_toExtra G r
  rcases Nat.eq_zero_or_pos t with rfl | hpos
  · rw [code_low hv hr] at h
    simp at h
    subst h
    exact .copy
  rcases Nat.lt_or_ge t (G.base r) with h1 | h1
  · -- from the extra peer
    have he : G.HasExtra r := by
      by_contra hne
      rw [base, if_neg hne] at h1
      omega
    have hb : G.base r = 4 := by rw [base, if_pos he]
    obtain ⟨x, rfl⟩ : ∃ x, t = x + 1 := ⟨t - 1, by omega⟩
    rw [getElem_fromExtra hv hr h1, fromExtra, G.A.rank_pe, if_pos he, ← hp] at h
    match x, (show x < 3 by omega) with
    | 0, _ => simp at h; subst h; exact .at_pos (.ready extraWord (hl he) (by omega)) (by omega)
    | 1, _ => simp at h; subst h; exact .at_pos (.waitData extraWord (hl he)) (by omega)
    | 2, _ => simp at h; subst h; exact .at_pos (.reduce extraWord (hl he) hr) (by omega)
  rcases Nat.lt_or_ge t (G.base r + 7 * G.log2Proc) with h2 | h2
  · -- the exchanges
    have hi : (t - G.base r) / 7 < G.log2Proc := Nat.div_lt_of_lt_mul (by omega)
    have hsplit := Nat.div_add_mod (t - G.base r) 7
    have hmod := Nat.mod_lt (t - G.base r) (show 0 < 7 by decide)
    generalize (t - G.base r) / 7 = i at hi hsplit
    generalize (t - G.base r) % 7 = b at hsplit hmod
    obtain rfl : t = G.base r + 7 * i + b := by omega
    rw [getElem_pairwise hv hr hi hmod] at h
    exact codeAt_pairwise hv hr hi hmod h
  rcases Nat.lt_or_ge t (G.lastPos r) with h3 | h3
  · -- to the extra peer
    have he : G.HasExtra r := by
      by_contra hne
      rw [lastPos, if_neg hne] at h3
      omega
    obtain ⟨x, rfl⟩ : ∃ x, t = G.dataPos r extraWord + x := ⟨t - G.dataPos r extraWord, by omega⟩
    have hx : x < 4 := by rw [lastPos, if_pos he] at h3; omega
    rw [getElem_send hv (hl he) hx] at h
    match x, hx with
    | 0, _ => simp [sendData] at h; subst h; exact .data extraWord (hl he)
    | 1, _ => simp [sendData] at h; subst h; exact .putWait extraWord (hl he)
    | 2, _ => simp [sendData] at h; subst h; exact .fence extraWord (hl he)
    | 3, _ => simp [sendData] at h; subst h; exact .ack extraWord (hl he)
  rcases Nat.eq_or_lt_of_le h3 with rfl | h4
  · have hlast := getElem_last hv hr 0
    simp only [Nat.add_zero, List.getElem?_cons_zero] at hlast
    rw [hlast, Option.some.injEq] at h
    subst h
    exact .last hr
  · have hst : ∀ w, G.storePos r w = G.lastPos r + 1 + w := fun w => by rw [storePos, if_neg (by omega)]
    obtain ⟨w, rfl⟩ : ∃ w, t = G.storePos r w := ⟨t - (G.lastPos r + 1), by rw [hst]; omega⟩
    have hw : w < SHMEM_REDUCE_SYNC_SIZE := by
      have hlt := (List.getElem?_eq_some_iff.mp h).1
      rw [length_code hv, hst, hst] at hlt
      omega
    rw [getElem_store hv hw, Option.some.injEq] at h
    subst h
    exact .store w hw

/-- the code of a rank, instruction by instruction -/
theorem codeAt_of_getElem {r t : ℕ} {ins : Instr} (hn : r < G.A.PE_size)
    (h : (G.opToAllRecdblSw (G.A.pe r))[t]? = some ins) : G.CodeAt r t ins := by
  by_cases hr : G.pow2Proc ≤ r
  · exact codeAt_extra hv hn hr h
  · exact codeAt_low hv (by omega) h

theorem codeAt_inj {r t : ℕ} {ins ins' : Instr} (h : G.CodeAt r t ins) (h' : G.CodeAt r t ins') : ins = ins' := by
  have := h.getElem hv
  rw [h'.getElem hv, Option.some.injEq] at this
  exact this.symm

/-! ## Order of the positions -/

omit hv in
theorem base_pos (r : ℕ) : 1 ≤ G.base r := by
  unfold base
  split_ifs <;> omega

theorem order_low {r w : ℕ} (hl : G.Link r w) (h : r < G.partner r w) :
    G.firstPos r w < G.waitPos r w ∧ G.waitPos r w < G.dataPos r w := by
  rcases hl.cases hv with ⟨hw, hx, hr, hp⟩ | ⟨rfl, hr, -, hp⟩ | ⟨rfl, hr, he, hp⟩
  · simp only [firstPos, waitPos, dataPos, if_neg hx, if_pos h]
    omega
  · omega
  · have hb : G.base r = 4 := by rw [base, if_pos he]
    simp only [firstPos, waitPos, dataPos, if_true, if_neg (show ¬ G.pow2Proc ≤ r by omega)]
    omega

theorem order_high {r w : ℕ} (hl : G.Link r w) (h : G.partner r w < r) :
    G.firstPos r w < G.dataPos r w ∧ G.dataPos r w + 3 < G.waitPos r w := by
  rcases hl.cases hv with ⟨hw, hx, hr, hp⟩ | ⟨rfl, hr, -, hp⟩ | ⟨rfl, hr, he, hp⟩
  · simp only [firstPos, waitPos, dataPos, if_neg hx, if_neg (show ¬ r < G.partner r w by omega)]
    omega
  · simp only [firstPos, waitPos, dataPos, if_true, if_pos hr]
    omega
  · omega

theorem firstPos_lt_waitPos {r w : ℕ} (hl : G.Link r w) : G.firstPos r w < G.waitPos r w := by
  rcases Nat.lt_or_gt_of_ne (partner_ne hv hl) with h | h
  · have := order_high hv hl h
    omega
  · exact (order_low hv hl h).1

/-- a rank reduces what it waited for, and copies the result behind all that -/
theorem order_red {r w : ℕ} (hl : G.Link r w) (hr : r < G.pow2Proc) :
    G.waitPos r w < G.redPos r w ∧ G.redPos r w < G.lastPos r := by
  rcases hl.cases hv with ⟨hw, hx, -, -⟩ | ⟨-, hr', -⟩ | ⟨rfl, -, he, -⟩
  · simp only [waitPos, redPos, lastPos, if_neg hx]
    split_ifs <;> omega
  · omega
  · have hb : G.base r = 4 := by rw [base, if_pos he]
    simp only [waitPos, redPos, lastPos, if_true, if_neg (show ¬ G.pow2Proc ≤ r by omega), if_pos he]
    omega

/-- the words are cleared last -/
theorem waitPos_lt_storePos {r w : ℕ} (hl : G.Link r w) (w' : ℕ) : G.waitPos r w < G.storePos r w' := by
  unfold storePos
  split_ifs with hr
  · rcases hl.cases hv with ⟨-, -, hr', -⟩ | ⟨rfl, -, -, -⟩ | ⟨-, hr', -⟩
    · omega
    · simp only [waitPos, if_true, if_pos hr]
      omega
    · omega
  · have := order_red hv hl (by omega)
    omega

end

/-- from here on the target of rank r takes the data of link w -/
def openPos (G : Args) (r w : ℕ) : ℕ := if r < G.partner r w then G.firstPos r w else G.dataPos r w + 3

/-- the target is used for one link at a time -/
theorem order_links (hv : G.Valid) {r w w' : ℕ} (hl : G.Link r w) (hl' : G.Link r w') (hne : w ≠ w') (hr : r < G.pow2Proc) :
    G.redPos r w < G.openPos r w' ∨ G.redPos r w' < G.openPos r w := by
  -- the link with the extra peer comes first, the exchanges follow in order
  have hstep : ∀ u, u ≠ extraWord → G.base r + 7 * u ≤ G.openPos r u ∧ G.redPos r u = G.base r + 7 * u + 6 := by
    intro u hu
    refine ⟨?_, by rw [redPos, if_neg hu]⟩
    simp only [openPos, firstPos, dataPos, if_neg hu]
    split_ifs <;> omega
  have hextra : G.Link r extraWord → G.redPos r extraWord < G.base r := by
    intro hx
    have hb : G.base r = 4 := by rw [base, if_pos (hx.hasExtra hv hr)]
    simp only [redPos, if_true]
    omega
  by_cases hw : w = extraWord
  · subst hw
    have := hextra hl
    have := hstep w' (fun h => hne h.symm)
    omega
  · by_cases hw' : w' = extraWord
    · subst hw'
      have := hextra hl'
      have := hstep w hw
      omega
    · have := hstep w hw
      have := hstep w' hw'
      omega

instance (G : Args) (r w : ℕ) : Decidable (G.Link r w) := inferInstanceAs (Decidable (_ ∨ _))

end Args

/-! ## Handshakes -/

/-- the members calling the reduction once -/
def machine {α : Type*} (G : Args) (op : α → α → α) : Machine α := once G.A.members op G.opToAllRecdblSw

/-- what word w of rank r holds until it is cleared -/
def wordVal {α : Type*} (G : Args) (s : St α) (r w : ℕ) : ℤ :=
  if G.Link r w then
    if s.done (G.A.pe (G.partner r w)) (G.dataPos (G.partner r w) w + 3) 0 = true then psDataReady
    else if G.partner r w < r ∧ s.done (G.A.pe (G.partner r w)) (G.firstPos (G.partner r w) w) 0 = true then psTargetReady
    else 0
  else 0

/-- who is past a wait got what it waited for; what the words hold -/
structure Sync {α : Type*} (G : Args) (s : St α) : Prop where
  ready : ∀ r w, G.Link r w → G.partner r w < r → G.firstPos r w < s.pc (G.A.pe r) →
    s.done (G.A.pe (G.partner r w)) (G.firstPos (G.partner r w) w) 0 = true
  data : ∀ r w, G.Link r w → G.waitPos r w < s.pc (G.A.pe r) →
    s.done (G.A.pe (G.partner r w)) (G.dataPos (G.partner r w) w + 3) 0 = true
  word : ∀ r < G.A.PE_size, ∀ w < SHMEM_REDUCE_SYNC_SIZE,
    s.cell (G.A.pe r) w = if G.storePos r w < s.pc (G.A.pe r) then 0 else wordVal G s r w

section
variable {α : Type*} {G : Args} {op : α → α → α} (hv : G.Valid)

theorem prog_pe {r : ℕ} (hr : r < G.A.PE_size) (t : ℕ) :
    (machine G op).prog (G.A.pe r) t = (G.opToAllRecdblSw (G.A.pe r))[t]? := by
  simp [machine, once, G.A.pe_mem hr]

include hv

theorem prog_cases {v t : ℕ} {ins : Instr} (h : (machine G op).prog v t = some ins) :
    ∃ r < G.A.PE_size, v = G.A.pe r ∧ G.CodeAt r t ins := by
  simp only [machine, once] at h
  split_ifs at h with hmem
  obtain ⟨r, hr, rfl⟩ := G.A.mem_members.mp hmem
  exact ⟨r, hr, rfl, Args.codeAt_of_getElem hv hr h⟩

theorem prog_of {r t : ℕ} {ins : Instr} (hr : r < G.A.PE_size) (h : G.CodeAt r t ins) :
    (machine G op).prog (G.A.pe r) t = some ins := by
  rw [prog_pe hr]
  exact h.getElem hv

theorem Link_lt_size {r w : ℕ} (hl : G.Link r w) : w < SHMEM_REDUCE_SYNC_SIZE := by
  have hw := Args.log2Proc_lt hv
  have hx : extraWord < SHMEM_REDUCE_SYNC_SIZE := by decide
  rcases hl with ⟨h, -⟩ | ⟨rfl, -⟩ <;> omega

variable {s : St α}

/-- who sends its data may do so -/
theorem Sync.window (h : Sync G s) (hh : (machine G op).Hist s) {p w : ℕ} (hl : G.Link p w)
    (hpc : G.dataPos p w < s.pc (G.A.pe p)) : G.openPos (G.partner p w) w < s.pc (G.A.pe (G.partner p w)) := by
  have hback := Args.partner_partner hv hl
  rcases Nat.lt_or_gt_of_ne (Args.partner_ne hv hl) with hlow | hhigh
  · have hd := h.ready p w hl hlow (by have := Args.order_high hv hl hlow; omega)
    rw [Args.openPos, hback, if_pos hlow]
    exact (hh.doneIssued _ _ _ hd).1
  · have hd := h.data p w hl (by have := Args.order_low hv hl hhigh; omega)
    rw [Args.openPos, hback, if_neg (by omega)]
    exact (hh.doneIssued _ _ _ hd).1

/-- when the second value of a word is sent, the first has been seen -/
theorem Sync.seen (h : Sync G s) (hh : (machine G op).Hist s) {p w : ℕ} (hl : G.Link p w) (hlow : p < G.partner p w)
    (hpc : G.dataPos p w < s.pc (G.A.pe p)) : G.firstPos (G.partner p w) w < s.pc (G.A.pe (G.partner p w)) ∧
      s.done (G.A.pe p) (G.firstPos p w) 0 = true := by
  have hback := Args.partner_partner hv hl
  have hwin := h.window hv hh hl hpc
  rw [Args.openPos, hback, if_neg (by omega)] at hwin
  have hord := Args.order_high hv (hl.partner hv) (by rw [hback]; exact hlow)
  have hd := h.ready _ w (hl.partner hv) (by rw [hback]; exact hlow) (by omega)
  rw [hback] at hd
  exact ⟨by omega, hd⟩

/-- a word that holds its last value may be cleared, and nobody writes to it any more -/
theorem Sync.not_cleared (h : Sync G s) {r w : ℕ} (hl : G.Link r w)
    (hnd : s.done (G.A.pe (G.partner r w)) (G.dataPos (G.partner r w) w + 3) 0 = false) (w' : ℕ) :
    ¬ G.storePos r w' < s.pc (G.A.pe r) := by
  intro hlt
  have hpos := Args.waitPos_lt_storePos hv hl w'
  rw [h.data r w hl (by omega)] at hnd
  exact absurd hnd (by decide)

theorem Sync.pass_ready (h : Sync G s) {r w : ℕ} (hl : G.Link r w) (hpc : s.pc (G.A.pe r) = G.firstPos r w)
    (he : s.cell (G.A.pe r) w = psTargetReady) :
    s.done (G.A.pe (G.partner r w)) (G.firstPos (G.partner r w) w) 0 = true := by
  have hst := Args.waitPos_lt_storePos hv hl w
  have hfirst := Args.firstPos_lt_waitPos hv hl
  rw [h.word r (hl.lt hv) w (Link_lt_size hv hl), if_neg (by omega), wordVal, if_pos hl] at he
  split_ifs at he with h1 h2
  · exact absurd he (by decide)
  · exact h2.2
  · exact absurd he (by decide)

theorem Sync.pass_data (h : Sync G s) {r w : ℕ} (hl : G.Link r w) (hpc : s.pc (G.A.pe r) = G.waitPos r w)
    (he : s.cell (G.A.pe r) w = psDataReady) :
    s.done (G.A.pe (G.partner r w)) (G.dataPos (G.partner r w) w + 3) 0 = true := by
  have hst := Args.waitPos_lt_storePos hv hl w
  rw [h.word r (hl.lt hv) w (Link_lt_size hv hl), if_neg (by omega), wordVal, if_pos hl] at he
  split_ifs at he with h1 h2
  · exact h1
  · exact absurd he (by decide)
  · exact absurd he (by decide)

/-- the words of the PE that makes a step -/
theorem Sync.word_exec (h : Sync G s) {q : ℕ} {ins : Instr} (hat : G.CodeAt q (s.pc (G.A.pe q)) ins)
    (hq : q < G.A.PE_size) {w : ℕ} (hw : w < SHMEM_REDUCE_SYNC_SIZE) :
    ((machine G op).effect s (G.A.pe q) ins).cell (G.A.pe q) w =
      if G.storePos q w < s.pc (G.A.pe q) + 1 then 0 else wordVal G s q w := by
  by_cases hstore : s.pc (G.A.pe q) = G.storePos q w
  · have hins := Args.codeAt_inj hv hat ((Args.CodeAt.store w hw).at_pos hstore.symm)
    subst hins
    rw [if_pos (by omega)]
    exact setCell_self ..
  · -- another word, or no word at all
    have hcell : ((machine G op).effect s (G.A.pe q) ins).cell (G.A.pe q) w = s.cell (G.A.pe q) w := by
      generalize htt : s.pc (G.A.pe q) = t at hat hstore
      cases hat with
      | store w' hw' =>
        have hne : w ≠ w' := fun heq => hstore (by rw [heq])
        exact (setCell_apply ..).trans (if_neg fun hc => hne hc.2)
      | _ => rfl
    rw [hcell, h.word q hq w hw]
    by_cases hlt : G.storePos q w < s.pc (G.A.pe q)
    · rw [if_pos hlt, if_pos (by omega)]
    · rw [if_neg hlt, if_neg (by omega)]

theorem Sync.exec (h : Sync G s) {v : ℕ} {ins : Instr} (hp : (machine G op).prog v (s.pc v) = some ins)
    (he : (machine G op).Enabled s v ins) : Sync G (advance ((machine G op).effect s v ins) v) := by
  obtain ⟨q, hq, rfl, hat⟩ := prog_cases hv hp
  have hpc : ∀ r, r ≠ q → (advance ((machine G op).effect s (G.A.pe q) ins) (G.A.pe q)).pc (G.A.pe r) = s.pc (G.A.pe r) := by
    intro r hr
    rw [advance_pc_other _ (fun heq => hr (G.A.pe_inj.mp heq)), effect_pc]
  refine ⟨?_, ?_, ?_⟩
  · intro r w hl hhigh hlt
    rw [advance_done, effect_done]
    by_cases hr : r = q
    · subst hr
      rw [advance_pc_self, effect_pc] at hlt
      rcases Nat.lt_succ_iff_lt_or_eq.mp hlt with hlt | heq
      · exact h.ready r w hl hhigh hlt
      · have hins := Args.codeAt_inj hv hat ((Args.CodeAt.waitReady w hl hhigh).at_pos heq)
        subst hins
        exact h.pass_ready hv hl heq.symm he
    · rw [hpc r hr] at hlt
      exact h.ready r w hl hhigh hlt
  · intro r w hl hlt
    rw [advance_done, effect_done]
    by_cases hr : r = q
    · subst hr
      rw [advance_pc_self, effect_pc] at hlt
      rcases Nat.lt_succ_iff_lt_or_eq.mp hlt with hlt | heq
      · exact h.data r w hl hlt
      · have hins := Args.codeAt_inj hv hat ((Args.CodeAt.waitData w hl).at_pos heq)
        subst hins
        exact h.pass_data hv hl heq.symm he
    · rw [hpc r hr] at hlt
      exact h.data r w hl hlt
  · intro r hr w hw
    have hval : wordVal G (advance ((machine G op).effect s (G.A.pe q) ins) (G.A.pe q)) r w = wordVal G s r w := by
      simp only [wordVal, advance_done, effect_done]
    rw [hval, advance_cell]
    by_cases hrq : r = q
    · subst hrq
      rw [advance_pc_self, effect_pc]
      exact h.word_exec hv hat hr hw
    · have hcell : ((machine G op).effect s (G.A.pe q) ins).cell (G.A.pe r) w = s.cell (G.A.pe r) w := by
        generalize s.pc (G.A.pe q) = t at hat
        cases hat with
        | store w' hw' => exact (setCell_apply ..).trans (if_neg fun hc => hrq (G.A.pe_inj.mp hc.1))
        | _ => rfl
      rw [hcell, hpc r hrq]
      exact h.word r hr w hw

/-! ## Deliveries -/

omit hv in
/-- deliveries do not undo waits -/
theorem Sync.of_word (h : Sync G s) {s' : St α} (hlat : Later s s') (hpc : s'.pc = s.pc)
    (hword : ∀ r < G.A.PE_size, ∀ w < SHMEM_REDUCE_SYNC_SIZE,
      s'.cell (G.A.pe r) w = if G.storePos r w < s.pc (G.A.pe r) then 0 else wordVal G s' r w) : Sync G s' where
  ready r w hl hlow hlt := hlat.done _ _ _ (h.ready r w hl hlow (by rwa [hpc] at hlt))
  data r w hl hlt := hlat.done _ _ _ (h.data r w hl (by rwa [hpc] at hlt))
  word r hr w hw := by rw [hpc]; exact hword r hr w hw

omit hv in
/-- words that a delivery at position t of rank p does not write -/
theorem wordVal_eq {s' : St α} {p t j : ℕ}
    (hdone : ∀ v' t' x, s'.done v' t' x = true ↔ (v' = G.A.pe p ∧ t' = t ∧ x = j) ∨ s.done v' t' x = true) {r w : ℕ}
    (hack : G.Link r w → G.partner r w = p → G.dataPos p w + 3 ≠ t)
    (hfirst : G.Link r w → G.partner r w = p → p < r → G.firstPos p w ≠ t) : wordVal G s' r w = wordVal G s r w := by
  unfold wordVal
  by_cases hl : G.Link r w
  · have h1 : s'.done (G.A.pe (G.partner r w)) (G.dataPos (G.partner r w) w + 3) 0 =
        s.done (G.A.pe (G.partner r w)) (G.dataPos (G.partner r w) w + 3) 0 := by
      rw [Bool.eq_iff_iff, hdone]
      refine ⟨?_, Or.inr⟩
      rintro (⟨hp, ht, -⟩ | hd)
      · have hp := G.A.pe_inj.mp hp
        exact absurd (hp ▸ ht) (hack hl hp)
      · exact hd
    have h2 : (G.partner r w < r ∧ s'.done (G.A.pe (G.partner r w)) (G.firstPos (G.partner r w) w) 0 = true) ↔
        (G.partner r w < r ∧ s.done (G.A.pe (G.partner r w)) (G.firstPos (G.partner r w) w) 0 = true) := by
      refine and_congr_right fun hlt => ?_
      rw [hdone]
      refine ⟨?_, Or.inr⟩
      rintro (⟨hp, ht, -⟩ | hd)
      · have hp := G.A.pe_inj.mp hp
        exact absurd (hp ▸ ht) (hfirst hl hp (hp ▸ hlt))
      · exact hd
    simp only [hl, if_true, h1, h2]
  · simp only [hl, if_false]

/-- positions of scalars: the instruction tells the word and the value -/
theorem ack_ne_first {p w w' : ℕ} (hl : G.Link p w) (hl' : G.Link p w') (hlow : p < G.partner p w') :
    G.dataPos p w + 3 ≠ G.firstPos p w' := by
  intro heq
  have := Args.codeAt_inj hv (.ack w hl) ((Args.CodeAt.ready w' hl' hlow).at_pos heq.symm)
  simp [psDataReady, psTargetReady] at this

theorem ack_inj {p w w' : ℕ} (hl : G.Link p w) (hl' : G.Link p w') (heq : G.dataPos p w + 3 = G.dataPos p w' + 3) :
    w = w' := by
  have := Args.codeAt_inj hv (.ack w hl) ((Args.CodeAt.ack w' hl').at_pos heq.symm)
  simp only [Instr.putScalar.injEq] at this
  exact this.1

theorem first_inj {p w w' : ℕ} (hl : G.Link p w) (hlow : p < G.partner p w) (hl' : G.Link p w')
    (hlow' : p < G.partner p w') (heq : G.firstPos p w = G.firstPos p w') : w = w' := by
  have := Args.codeAt_inj hv (.ready w hl hlow) ((Args.CodeAt.ready w' hl' hlow').at_pos heq.symm)
  simp only [Instr.putScalar.injEq] at this
  exact this.1

theorem data_ne_ack {p w w' : ℕ} (hl : G.Link p w) (hl' : G.Link p w') : G.dataPos p w ≠ G.dataPos p w' + 3 := by
  intro heq
  have := Args.codeAt_inj hv (.data w hl) ((Args.CodeAt.ack w' hl').at_pos heq.symm)
  simp at this

theorem data_ne_first {p w w' : ℕ} (hl : G.Link p w) (hl' : G.Link p w') (hlow' : p < G.partner p w') :
    G.dataPos p w ≠ G.firstPos p w' := by
  intro heq
  have := Args.codeAt_inj hv (.data w hl) ((Args.CodeAt.ready w' hl' hlow').at_pos heq.symm)
  simp at this

theorem data_inj {p w w' : ℕ} (hl : G.Link p w) (hl' : G.Link p w') (heq : G.dataPos p w = G.dataPos p w') : w = w' :=
  ack_inj hv hl hl' (by rw [heq])

/-- the link seen from the other side -/
theorem link_of_partner {r w p : ℕ} (hl : G.Link r w) (hp : G.partner r w = p) : G.Link p w ∧ G.partner p w = r := by
  subst hp
  exact ⟨hl.partner hv, Args.partner_partner hv hl⟩

/-- data arrive: the words stay -/
theorem Sync.deliver_data (h : Sync G s) {p w j : ℕ} {s' : St α} (hl : G.Link p w) (hlat : Later s s')
    (hpc : s'.pc = s.pc) (hcell : s'.cell = s.cell)
    (hdone : ∀ v' t' x, s'.done v' t' x = true ↔ (v' = G.A.pe p ∧ t' = G.dataPos p w ∧ x = j) ∨ s.done v' t' x = true) :
    Sync G s' := by
  refine h.of_word hlat hpc fun r hr w' hw' => ?_
  rw [hcell, wordVal_eq hdone]
  · exact h.word r hr w' hw'
  · intro hl' hp
    exact (data_ne_ack hv hl (link_of_partner hv hl' hp).1).symm
  · intro hl' hp hlow
    obtain ⟨h1, h2⟩ := link_of_partner hv hl' hp
    exact (data_ne_first hv hl h1 (by rw [h2]; exact hlow)).symm

/-- an announcement arrives -/
theorem Sync.deliver_ready (h : Sync G s) (hh : (machine G op).Hist s) {p w : ℕ} {s' : St α} (hl : G.Link p w)
    (hlow : p < G.partner p w) (hnd : s.done (G.A.pe p) (G.firstPos p w) 0 = false) (hlat : Later s s')
    (hpc : s'.pc = s.pc) (hcell : s'.cell = setCell s.cell (G.A.pe (G.partner p w)) w psTargetReady)
    (hdone : ∀ v' t' x, s'.done v' t' x = true ↔ (v' = G.A.pe p ∧ t' = G.firstPos p w ∧ x = 0) ∨ s.done v' t' x = true) :
    Sync G s' := by
  have hback := Args.partner_partner hv hl
  -- the data cannot have been sent yet
  have hack : s.done (G.A.pe p) (G.dataPos p w + 3) 0 = false := by
    by_contra hd
    have hlt := (hh.doneIssued _ _ _ (by simpa using hd)).1
    have := (h.seen hv hh hl hlow (by omega)).2
    rw [hnd] at this
    exact absurd this (by decide)
  refine h.of_word hlat hpc fun r hr w' hw' => ?_
  rw [hcell, setCell_apply]
  by_cases heq : r = G.partner p w ∧ w' = w
  · obtain ⟨rfl, rfl⟩ := heq
    have hnc := h.not_cleared hv (hl.partner hv) (by rw [hback]; exact hack) w'
    have hack' : ¬ s'.done (G.A.pe p) (G.dataPos p w' + 3) 0 = true := by
      rw [hdone, hack]
      rintro (⟨-, heq, -⟩ | hd)
      · exact ack_ne_first hv hl hl hlow heq
      · exact absurd hd (by decide)
    rw [if_pos ⟨rfl, rfl⟩, if_neg hnc, wordVal, if_pos (hl.partner hv), hback, if_neg hack',
      if_pos ⟨hlow, (hdone _ _ _).mpr (Or.inl ⟨rfl, rfl, rfl⟩)⟩]
  · have hne : ¬ (G.A.pe r = G.A.pe (G.partner p w) ∧ w' = w) := fun hc => heq ⟨G.A.pe_inj.mp hc.1, hc.2⟩
    rw [if_neg hne, wordVal_eq hdone]
    · exact h.word r hr w' hw'
    · intro hl' hp
      exact ack_ne_first hv (link_of_partner hv hl' hp).1 hl hlow
    · intro hl' hp hlow' hpos
      obtain ⟨h1, h2⟩ := link_of_partner hv hl' hp
      have hww := first_inj hv h1 (by rw [h2]; exact hlow') hl hlow hpos
      subst hww
      exact heq ⟨h2.symm, rfl⟩

/-- the word behind the data arrives -/
theorem Sync.deliver_ack (h : Sync G s) {p w : ℕ} {s' : St α} (hl : G.Link p w)
    (hnd : s.done (G.A.pe p) (G.dataPos p w + 3) 0 = false) (hlat : Later s s')
    (hpc : s'.pc = s.pc) (hcell : s'.cell = setCell s.cell (G.A.pe (G.partner p w)) w psDataReady)
    (hdone : ∀ v' t' x, s'.done v' t' x = true ↔
      (v' = G.A.pe p ∧ t' = G.dataPos p w + 3 ∧ x = 0) ∨ s.done v' t' x = true) : Sync G s' := by
  have hback := Args.partner_partner hv hl
  refine h.of_word hlat hpc fun r hr w' hw' => ?_
  rw [hcell, setCell_apply]
  by_cases heq : r = G.partner p w ∧ w' = w
  · obtain ⟨rfl, rfl⟩ := heq
    have hnc := h.not_cleared hv (hl.partner hv) (by rw [hback]; exact hnd) w'
    rw [if_pos ⟨rfl, rfl⟩, if_neg hnc, wordVal, if_pos (hl.partner hv), hback,
      if_pos ((hdone _ _ _).mpr (Or.inl ⟨rfl, rfl, rfl⟩))]
  · have hne : ¬ (G.A.pe r = G.A.pe (G.partner p w) ∧ w' = w) := fun hc => heq ⟨G.A.pe_inj.mp hc.1, hc.2⟩
    rw [if_neg hne, wordVal_eq hdone]
    · exact h.word r hr w' hw'
    · intro hl' hp hpos
      obtain ⟨h1, h2⟩ := link_of_partner hv hl' hp
      have hww := ack_inj hv h1 hl hpos
      subst hww
      exact heq ⟨h2.symm, rfl⟩
    · intro hl' hp hlow'
      obtain ⟨h1, h2⟩ := link_of_partner hv hl' hp
      exact (ack_ne_first hv hl h1 (by rw [h2]; exact hlow')).symm

theorem Sync.deliver (h : Sync G s) (hh : (machine G op).Hist s) {v t j : ℕ} {ins : Instr}
    (hp : (machine G op).prog v t = some ins) (hd : (machine G op).Deliverable s v t j) :
    Sync G (mark ((machine G op).arrive s v t j ins) v t j) := by
  have hlat := (machine G op).later_deliver s v t j ins
  have hpc : (mark ((machine G op).arrive s v t j ins) v t j).pc = s.pc := by simp
  have hdone : ∀ v' t' x, (mark ((machine G op).arrive s v t j ins) v t j).done v' t' x = true ↔
      (v' = v ∧ t' = t ∧ x = j) ∨ s.done v' t' x = true := by
    intro v' t' x
    rw [mark_done, arrive_done]
  obtain ⟨-, hj, hnd, -, -⟩ := hd
  rw [partsAt_eq _ hp] at hj
  obtain ⟨r, hr, rfl, hat⟩ := prog_cases hv hp
  cases hat with
  | data w hl =>
    refine h.deliver_data hv hl hlat hpc ?_ hdone
    simp only [mark_cell, arrive]
    split <;> rfl
  | ready w hl hlow =>
    obtain rfl : j = 0 := by simp only [Instr.parts] at hj; omega
    exact h.deliver_ready hv hh hl hlow hnd hlat hpc rfl hdone
  | ack w hl =>
    obtain rfl : j = 0 := by simp only [Instr.parts] at hj; omega
    exact h.deliver_ack hv hl hnd hlat hpc rfl hdone
  | _ => exact absurd hj (by simp [Instr.parts, Args.reduceTarget])

end

/-! ## Data -/

section
variable {α : Type*} (G : Args) (op : α → α → α) (m0 : ℕ → Loc → α)

/-- element e of the source of rank r -/
def src (r e : ℕ) : α := m0 (G.A.pe r) (.sym (G.source + e))

/-- what rank r goes into the exchanges with -/
def start (e r : ℕ) : α := if G.HasExtra r then op (src G m0 r e) (src G m0 (r + G.pow2Proc) e) else src G m0 r e

/-- what it has after i exchanges -/
def level (i r e : ℕ) : α := Reduction.doubling op (start G op m0 e) i r

/-- what the intermediate result of rank r is at position t -/
def curVal (r t e : ℕ) : α :=
  if G.pow2Proc ≤ r ∨ t < G.base r then src G m0 r e else level G op m0 (min G.log2Proc ((t - G.base r) / 7)) r e

end

section
variable {α : Type*} {G : Args} {op : α → α → α} {m0 : ℕ → Loc → α}

theorem curVal_one (r e : ℕ) : curVal G op m0 r 1 e = src G m0 r e := by
  unfold curVal
  split_ifs with h
  · rfl
  · have hx : ¬ G.HasExtra r := by
      intro hx
      have : G.base r = 4 := by rw [Args.base, if_pos hx]
      omega
    have hb : G.base r = 1 := by rw [Args.base, if_neg hx]
    rw [hb, Nat.sub_self, Nat.zero_div, Nat.min_zero, level, Reduction.doubling, start, if_neg hx]

/-- where the exchanges are over -/
theorem curVal_last {r t : ℕ} (hr : r < G.pow2Proc) (ht : G.base r + 7 * G.log2Proc ≤ t) (e : ℕ) :
    curVal G op m0 r t e = level G op m0 G.log2Proc r e := by
  have hle : G.log2Proc ≤ (t - G.base r) / 7 := (Nat.le_div_iff_mul_le (by decide)).mpr (by omega)
  rw [curVal, if_neg (by omega), Nat.min_eq_left hle]

/-- within exchange i -/
theorem curVal_pairwise {r i b : ℕ} (hr : r < G.pow2Proc) (hi : i ≤ G.log2Proc) (hb : b < 7) (e : ℕ) :
    curVal G op m0 r (G.base r + 7 * i + b) e = level G op m0 i r e := by
  rw [curVal, if_neg (by omega), show (G.base r + 7 * i + b - G.base r) / 7 = i by omega, Nat.min_eq_right hi]

variable (hv : G.Valid)
include hv

/-- only a reduction changes the intermediate result -/
theorem curVal_succ {r t : ℕ} (hn : r < G.A.PE_size) (ht : 1 ≤ t)
    (hred : ∀ w, G.Link r w → r < G.pow2Proc → t ≠ G.redPos r w) (e : ℕ) :
    curVal G op m0 r (t + 1) e = curVal G op m0 r t e := by
  by_cases hr : G.pow2Proc ≤ r
  · simp [curVal, hr]
  rcases Nat.lt_or_ge (t + 1) (G.base r) with h1 | h1
  · rw [curVal, if_pos (Or.inr h1), curVal, if_pos (Or.inr (by omega))]
  rcases Nat.lt_or_ge t (G.base r) with h2 | h2
  · -- the position of the reduction with the extra peer's data
    have hx : G.HasExtra r := by
      by_contra hx
      rw [Args.base, if_neg hx] at h2
      omega
    have hb : G.base r = 4 := by rw [Args.base, if_pos hx]
    refine absurd ?_ (hred extraWord (Or.inr ⟨rfl, hn, Or.inr hx⟩) (by omega))
    rw [Args.redPos, if_pos rfl]
    omega
  · rw [curVal, if_neg (by omega), curVal, if_neg (by omega)]
    congr 1
    by_cases hi : (t - G.base r) / 7 < G.log2Proc
    · have hx : (t - G.base r) / 7 ≠ extraWord := by
        have := Args.log2Proc_lt hv
        omega
      have := hred _ (Or.inl ⟨hi, by omega⟩) (by omega)
      rw [Args.redPos, if_neg hx] at this
      omega
    · omega

/-- a reduction combines it with what the partner sent -/
theorem curVal_red {r w : ℕ} (hl : G.Link r w) (hr : r < G.pow2Proc) (e : ℕ) :
    curVal G op m0 r (G.redPos r w + 1) e = op (curVal G op m0 r (G.redPos r w) e)
      (curVal G op m0 (G.partner r w) (G.dataPos (G.partner r w) w + 1) e) := by
  rcases hl.cases hv with ⟨hw, hx, -, hp⟩ | ⟨-, hr', -⟩ | ⟨rfl, -, he, hp⟩
  · have hp2 : G.partner r w < G.pow2Proc := by rw [hp]; exact Args.xor_lt hv hw hr
    have hdata : curVal G op m0 (G.partner r w) (G.dataPos (G.partner r w) w + 1) e = level G op m0 w (G.partner r w) e := by
      rw [Args.dataPos, if_neg hx, Nat.add_assoc (G.base (G.partner r w) + 7 * w)]
      split_ifs with hlow
      · exact curVal_pairwise hp2 (by omega) (by decide) e
      · exact curVal_pairwise hp2 (by omega) (by decide) e
    have hnext : curVal G op m0 r (G.base r + 7 * (w + 1) + 0) e = _ :=
      curVal_pairwise hr (show w + 1 ≤ G.log2Proc by omega) (by decide) e
    rw [hdata, Args.redPos, if_neg hx, curVal_pairwise hr (by omega) (by decide),
      show G.base r + 7 * w + 6 + 1 = G.base r + 7 * (w + 1) + 0 by ring, hnext, hp]
    rfl
  · omega
  · have hb : G.base r = 4 := by rw [Args.base, if_pos he]
    have hnext : curVal G op m0 r (G.base r + 7 * 0 + 0) e = _ := curVal_pairwise hr (Nat.zero_le _) (by decide) e
    rw [hb] at hnext
    rw [Args.redPos, if_pos rfl, show 3 + 1 = 4 + 7 * 0 + 0 by decide, hnext, hp]
    simp only [curVal, show 3 < G.base r by omega, or_true, if_true, show G.pow2Proc ≤ r + G.pow2Proc by omega, true_or]
    rw [level, Reduction.doubling, start, if_pos he]

end

/-- what sources, intermediate results, buffers in flight and targets hold -/
structure Data {α : Type*} (G : Args) (op : α → α → α) (m0 : ℕ → Loc → α) (s : St α) : Prop where
  pre : ∀ r < G.A.PE_size, s.pc (G.A.pe r) = 0 → ∀ e < G.count, s.mem (G.A.pe r) (.sym (G.source + e)) = src G m0 r e
  cur : ∀ r < G.A.PE_size, 0 < s.pc (G.A.pe r) → ∀ e < G.count,
    s.mem (G.A.pe r) ((Loc.priv 0).elem e) = curVal G op m0 r (s.pc (G.A.pe r)) e
  cap : ∀ r w, G.Link r w → ∀ j v, s.cap (G.A.pe r) (G.dataPos r w) j = some v →
    v = curVal G op m0 r (G.dataPos r w + 1) j
  /-- data have arrived and are not reduced yet; an extra peer does not reduce -/
  got : ∀ r w, G.Link r w → ∀ j < G.count, s.done (G.A.pe (G.partner r w)) (G.dataPos (G.partner r w) w) j = true →
    (r < G.pow2Proc → s.pc (G.A.pe r) ≤ G.redPos r w) →
      s.mem (G.A.pe r) (.sym (G.target + j)) = curVal G op m0 (G.partner r w) (G.dataPos (G.partner r w) w + 1) j
  final : ∀ r < G.pow2Proc, G.lastPos r < s.pc (G.A.pe r) → ∀ j < G.count,
    s.mem (G.A.pe r) (.sym (G.target + j)) = level G op m0 G.log2Proc r j

section
variable {α : Type*} {G : Args} {op : α → α → α} {m0 : ℕ → Loc → α} {s : St α} (hv : G.Valid)
include hv

/-- who is past the wait for data has all of them -/
theorem Sync.received (h : Sync G s) (hh : (machine G op).Hist s) {r w : ℕ} (hl : G.Link r w)
    (hpc : G.waitPos r w < s.pc (G.A.pe r)) {j : ℕ} (hj : j < G.count) :
    s.done (G.A.pe (G.partner r w)) (G.dataPos (G.partner r w) w) j = true := by
  have hp := hl.partner hv
  have hlt := hp.lt hv
  have hdata : (machine G op).prog _ _ = some _ := prog_of hv hlt (.data w hp)
  refine hh.fenced _ _ _ (h.data r w hl hpc) (G.dataPos (G.partner r w) w + 2) (by omega) (prog_of hv hlt (.fence w hp)) _
    (by omega) ?_ j ?_
  · rw [destAt_eq _ hdata, destAt_eq _ (prog_of hv hlt (.ack w hp))]
    rfl
  · rw [partsAt_eq _ hdata]
    exact hj

/-- data arrive -/
theorem Data.deliver_data (h : Data G op m0 s) (hs : Sync G s) (hh : (machine G op).Hist s) {p w j : ℕ} {v : α}
    {s' : St α} (hl : G.Link p w) (hj : j < G.count) (hpc : G.dataPos p w < s.pc (G.A.pe p))
    (hnd : s.done (G.A.pe p) (G.dataPos p w) j = false) (hcap : s.cap (G.A.pe p) (G.dataPos p w) j = some v)
    (hpc' : s'.pc = s.pc) (hcap' : s'.cap = s.cap)
    (hmem : s'.mem = setLoc s.mem (G.A.pe (G.partner p w)) (.sym (G.target + j)) v)
    (hdone : ∀ v' t' x, s'.done v' t' x = true ↔ (v' = G.A.pe p ∧ t' = G.dataPos p w ∧ x = j) ∨ s.done v' t' x = true) :
    Data G op m0 s' := by
  have hval := h.cap p w hl j v hcap
  have hback := Args.partner_partner hv hl
  have hwin := hs.window hv hh hl hpc
  have hlr := hl.partner hv
  -- the receiver is not past its wait
  have hnot : ¬ G.waitPos (G.partner p w) w < s.pc (G.A.pe (G.partner p w)) := by
    intro hlt
    have := hs.received hv hh hlr hlt hj
    rw [hback, hnd] at this
    exact absurd this (by decide)
  refine ⟨?_, ?_, ?_, ?_, ?_⟩
  · intro r hr h0 e he
    rw [hpc'] at h0
    have hne : r ≠ G.partner p w := by
      rintro rfl
      omega
    rw [hmem, setLoc_apply, if_neg (fun hc => hne (G.A.pe_inj.mp hc.1))]
    exact h.pre r hr h0 e he
  · intro r hr h0 e he
    rw [hpc'] at h0 ⊢
    rw [hmem, setLoc_apply, if_neg (fun hc => by simp [Loc.elem] at hc)]
    exact h.cur r hr h0 e he
  · rw [hcap']
    exact h.cap
  · intro r w' hl' j' hj' hd hle
    rw [hpc'] at hle
    by_cases hsame : r = G.partner p w ∧ j' = j
    · obtain ⟨rfl, rfl⟩ := hsame
      by_cases hw : w' = w
      · subst hw
        rw [hmem, setLoc_apply, if_pos ⟨rfl, rfl⟩, hback]
        exact hval
      · -- another link of the receiver: its data were used before, or this link's were
        have hd' : s.done (G.A.pe (G.partner (G.partner p w) w')) (G.dataPos (G.partner (G.partner p w) w') w') j' = true := by
          rcases (hdone _ _ _).mp hd with ⟨h1, -, -⟩ | hd
          · have h1 := G.A.pe_inj.mp h1
            exact absurd (Args.partner_inj hv hl' hlr (h1.trans hback.symm)) hw
          · exact hd
        have hwin' := hs.window hv hh (hl'.partner hv) (hh.doneIssued _ _ _ hd').1
        rw [Args.partner_partner hv hl'] at hwin'
        by_cases hr : G.partner p w < G.pow2Proc
        · have hred := Args.order_red hv hlr hr
          have hle := hle hr
          rcases Args.order_links hv hlr hl' (fun heq => hw heq.symm) hr with hord | hord
          · omega
          · omega
        · -- an extra peer has one link only
          rcases hl'.cases hv with ⟨-, -, hr', -⟩ | ⟨h1, -, -, -⟩ | ⟨-, hr', -⟩
          · omega
          · rcases hlr.cases hv with ⟨-, -, hr', -⟩ | ⟨h2, -, -, -⟩ | ⟨-, hr', -⟩
            · omega
            · exact absurd (h1.trans h2.symm) hw
            · omega
          · omega
    · have hd' : s.done (G.A.pe (G.partner r w')) (G.dataPos (G.partner r w') w') j' = true := by
        rcases (hdone _ _ _).mp hd with ⟨h1, h2, h3⟩ | hd
        · have h1 := G.A.pe_inj.mp h1
          obtain ⟨hlp, hpr⟩ := link_of_partner hv hl' h1
          rw [h1] at h2
          have hww := data_inj hv hlp hl h2
          subst hww
          exact absurd ⟨hpr.symm, h3⟩ hsame
        · exact hd
      rw [hmem, setLoc_apply, if_neg (fun hc => hsame ⟨G.A.pe_inj.mp hc.1, by simpa using hc.2⟩)]
      exact h.got r w' hl' j' hj' hd' hle
  · intro r hr hlt j' hj'
    rw [hpc'] at hlt
    have hne : r ≠ G.partner p w := by
      rintro rfl
      have := Args.order_red hv hlr hr
      omega
    rw [hmem, setLoc_apply, if_neg (fun hc => hne (G.A.pe_inj.mp hc.1))]
    exact h.final r hr hlt j' hj'

/-- a delivery that is not of data -/
theorem Data.deliver_sync (h : Data G op m0 s) {s' : St α} (hpc : s'.pc = s.pc) (hcap : s'.cap = s.cap)
    (hmem : s'.mem = s.mem)
    (hdone : ∀ p w j, G.Link p w → s'.done (G.A.pe p) (G.dataPos p w) j = true →
      s.done (G.A.pe p) (G.dataPos p w) j = true) : Data G op m0 s' := by
  refine ⟨?_, ?_, ?_, ?_, ?_⟩
  · rw [hpc, hmem]; exact h.pre
  · rw [hpc, hmem]; exact h.cur
  · rw [hcap]; exact h.cap
  · intro r w hl j hj hd
    rw [hpc, hmem]
    exact h.got r w hl j hj (hdone _ _ _ (hl.partner hv) hd)
  · rw [hpc, hmem]; exact h.final

/-- the intermediate result is read while it is what it was when the put was issued -/
theorem Data.capture (h : Data G op m0 s) (hh : (machine G op).Hist s) {r w j : ℕ} (hl : G.Link r w) (hj : j < G.count)
    (hpc : G.dataPos r w < s.pc (G.A.pe r)) (hnone : s.cap (G.A.pe r) (G.dataPos r w) j = none) :
    s.mem (G.A.pe r) ((Loc.priv 0).elem j) = curVal G op m0 r (G.dataPos r w + 1) j := by
  have hlt := hl.lt hv
  have hat : s.pc (G.A.pe r) = G.dataPos r w + 1 := by
    by_contra hne
    have hread := hh.putWaited _ _ (prog_of hv hlt (.putWait w hl)) (by omega) (G.dataPos r w) (by omega) j
      (by rw [readsAt_eq _ (prog_of hv hlt (.data w hl))]; exact hj)
    rw [hnone] at hread
    exact absurd hread (by simp)
  rw [← hat]
  exact h.cur r hlt (by omega) j hj

omit hv in
/-- an instruction of rank q that leaves sources and targets alone -/
theorem Data.exec_cur (h : Data G op m0 s) {q : ℕ} {f : ℕ → Loc → α} (hf : ∀ v a, f v (.sym a) = s.mem v (.sym a))
    (hother : ∀ r e, r ≠ q → f (G.A.pe r) ((Loc.priv 0).elem e) = s.mem (G.A.pe r) ((Loc.priv 0).elem e))
    (hcur : ∀ e < G.count, q < G.A.PE_size → f (G.A.pe q) ((Loc.priv 0).elem e) =
      curVal G op m0 q (s.pc (G.A.pe q) + 1) e)
    (hlast : q < G.pow2Proc → s.pc (G.A.pe q) ≠ G.lastPos q) : Data G op m0 (advance { s with mem := f } (G.A.pe q)) := by
  have hpc : ∀ r, r ≠ q → (advance { s with mem := f } (G.A.pe q)).pc (G.A.pe r) = s.pc (G.A.pe r) :=
    fun r hr => advance_pc_other _ fun heq => hr (G.A.pe_inj.mp heq)
  refine ⟨?_, ?_, h.cap, ?_, ?_⟩
  · intro r hr h0 e he
    have hne : r ≠ q := by
      rintro rfl
      rw [advance_pc_self] at h0
      omega
    rw [hpc r hne] at h0
    exact (hf _ _).trans (h.pre r hr h0 e he)
  · intro r hr h0 e he
    by_cases hrq : r = q
    · subst hrq
      rw [advance_pc_self]
      exact hcur e he hr
    · rw [hpc r hrq] at h0 ⊢
      exact (hother r e hrq).trans (h.cur r hr h0 e he)
  · intro r w hl j hj hd hle
    refine (hf _ _).trans (h.got r w hl j hj hd fun hr => ?_)
    have hle := hle hr
    by_cases hrq : r = q
    · subst hrq
      rw [advance_pc_self] at hle
      dsimp only at hle
      omega
    · rwa [hpc r hrq] at hle
  · intro r hr hlt j hj
    refine (hf _ _).trans (h.final r hr ?_ j hj)
    by_cases hrq : r = q
    · subst hrq
      rw [advance_pc_self] at hlt
      dsimp only at hlt
      have := hlast hr
      omega
    · rwa [hpc r hrq] at hlt

omit hv in
/-- the copy of the source -/
theorem Data.copy (h : Data G op m0 s) {q : ℕ} (hpc : s.pc (G.A.pe q) = 0) {f : ℕ → Loc → α}
    (hf : f = setBuf s.mem (G.A.pe q) (.priv 0) G.count fun j => s.mem (G.A.pe q) ((Loc.sym G.source).elem j)) :
    Data G op m0 (advance { s with mem := f } (G.A.pe q)) := by
  refine h.exec_cur ?_ ?_ ?_ ?_
  · intro v a
    rw [hf]
    by_cases hvq : v = G.A.pe q
    · subst hvq
      exact setBuf_outside _ _ _ _ _ _ fun j _ => by simp [Loc.elem]
    · exact setBuf_other _ _ _ _ _ hvq _
  · intro r e hr
    rw [hf]
    exact setBuf_other _ _ _ _ _ (fun heq => hr (G.A.pe_inj.mp heq)) _
  · intro e he hq
    rw [hf, setBuf_elem _ _ _ _ he, hpc, curVal_one]
    exact h.pre q hq hpc e he
  · intro hq
    have := Args.base_pos (G := G) q
    unfold Args.lastPos
    omega

/-- a reduction -/
theorem Data.reduce (h : Data G op m0 s) (hs : Sync G s) (hh : (machine G op).Hist s) {q w : ℕ} (hl : G.Link q w)
    (hq : q < G.pow2Proc) (hpc : s.pc (G.A.pe q) = G.redPos q w) {f : ℕ → Loc → α}
    (hf : f = setBuf s.mem (G.A.pe q) (.priv 0) G.count fun j =>
      op (s.mem (G.A.pe q) ((Loc.priv 0).elem j)) (s.mem (G.A.pe q) ((Loc.sym G.target).elem j))) :
    Data G op m0 (advance { s with mem := f } (G.A.pe q)) := by
  have hord := Args.order_red hv hl hq
  refine h.exec_cur ?_ ?_ ?_ fun _ => by omega
  · intro v a
    rw [hf]
    by_cases hvq : v = G.A.pe q
    · subst hvq
      exact setBuf_outside _ _ _ _ _ _ fun j _ => by simp [Loc.elem]
    · exact setBuf_other _ _ _ _ _ hvq _
  · intro r e hr
    rw [hf]
    exact setBuf_other _ _ _ _ _ (fun heq => hr (G.A.pe_inj.mp heq)) _
  · intro e he hn
    have hgot := h.got q w hl e he (hs.received hv hh hl (by omega) he) fun _ => by omega
    rw [hf, setBuf_elem _ _ _ _ he, h.cur q hn (by omega) e he, hpc, curVal_red hv hl hq, ← hgot]
    rfl

/-- the copy of the result -/
theorem Data.last (h : Data G op m0 s) {q : ℕ} (hq : q < G.pow2Proc) (hpc : s.pc (G.A.pe q) = G.lastPos q)
    {f : ℕ → Loc → α}
    (hf : f = setBuf s.mem (G.A.pe q) (.sym G.target) G.count fun j => s.mem (G.A.pe q) ((Loc.priv 0).elem j)) :
    Data G op m0 (advance { s with mem := f } (G.A.pe q)) := by
  have hpc' : ∀ r, r ≠ q → (advance { s with mem := f } (G.A.pe q)).pc (G.A.pe r) = s.pc (G.A.pe r) :=
    fun r hr => advance_pc_other _ fun heq => hr (G.A.pe_inj.mp heq)
  have hmem : ∀ r l, r ≠ q → f (G.A.pe r) l = s.mem (G.A.pe r) l := by
    intro r l hr
    rw [hf]
    exact setBuf_other _ _ _ _ _ (fun heq => hr (G.A.pe_inj.mp heq)) _
  have hle := Args.pow2Proc_le hv
  have hpos : 1 ≤ G.lastPos q ∧ G.base q + 7 * G.log2Proc ≤ G.lastPos q := by
    have := Args.base_pos (G := G) q
    unfold Args.lastPos
    omega
  have hend : ∀ t, G.lastPos q ≤ t → ∀ e, curVal G op m0 q t e = level G op m0 G.log2Proc q e :=
    fun t ht e => curVal_last hq (by omega) e
  refine ⟨?_, ?_, h.cap, ?_, ?_⟩
  · intro r hr h0 e he
    have hne : r ≠ q := by
      rintro rfl
      rw [advance_pc_self] at h0
      omega
    rw [hpc' r hne] at h0
    exact (hmem r _ hne).trans (h.pre r hr h0 e he)
  · intro r hr h0 e he
    by_cases hrq : r = q
    · subst hrq
      have hcur := h.cur r hr (by omega) e he
      rw [hpc, hend _ (le_refl _)] at hcur
      rw [advance_pc_self]
      dsimp only
      rw [hpc, hend _ (by omega), ← hcur, advance_mem]
      dsimp only
      rw [hf]
      exact setBuf_outside _ _ _ _ _ _ fun j _ => by simp [Loc.elem]
    · rw [hpc' r hrq] at h0 ⊢
      exact (hmem r _ hrq).trans (h.cur r hr h0 e he)
  · intro r w hl j hj hd hred
    by_cases hrq : r = q
    · subst hrq
      have hred := hred hq
      have := Args.order_red hv hl hq
      rw [advance_pc_self] at hred
      dsimp only at hred
      omega
    · rw [hpc' r hrq] at hred
      exact (hmem r _ hrq).trans (h.got r w hl j hj hd hred)
  · intro r hr hlt j hj
    by_cases hrq : r = q
    · subst hrq
      have hcur := h.cur r (by omega) (by omega) j hj
      rw [hpc, hend _ (le_refl _)] at hcur
      rw [← hcur, advance_mem]
      dsimp only
      rw [hf]
      exact setBuf_elem _ _ _ _ hj
    · rw [hpc' r hrq] at hlt
      exact (hmem r _ hrq).trans (h.final r hr hlt j hj)

theorem Data.exec (h : Data G op m0 s) (hs : Sync G s) (hh : (machine G op).Hist s) {v : ℕ} {ins : Instr}
    (hp : (machine G op).prog v (s.pc v) = some ins) :
    Data G op m0 (advance ((machine G op).effect s v ins) v) := by
  obtain ⟨q, hq, rfl, hat⟩ := prog_cases hv hp
  by_cases h0 : s.pc (G.A.pe q) = 0
  · have hins := Args.codeAt_inj hv hat (Args.CodeAt.copy.at_pos h0.symm)
    subst hins
    exact h.copy h0 rfl
  by_cases hlast : q < G.pow2Proc ∧ s.pc (G.A.pe q) = G.lastPos q
  · obtain ⟨hlow, hpc⟩ := hlast
    have hins := Args.codeAt_inj hv hat ((Args.CodeAt.last hlow).at_pos hpc.symm)
    subst hins
    exact h.last hv hlow hpc rfl
  by_cases hred : ∃ w, G.Link q w ∧ q < G.pow2Proc ∧ s.pc (G.A.pe q) = G.redPos q w
  · obtain ⟨w, hl, hlow, hpc⟩ := hred
    have hins := Args.codeAt_inj hv hat ((Args.CodeAt.reduce w hl hlow).at_pos hpc.symm)
    subst hins
    exact h.reduce hv hs hh hl hlow hpc rfl
  · -- no other instruction writes to memory
    push Not at hred
    have hmem : ((machine G op).effect s (G.A.pe q) ins) = { s with cell := ((machine G op).effect s (G.A.pe q) ins).cell } := by
      generalize htt : s.pc (G.A.pe q) = t at hat h0 hlast hred
      cases hat with
      | copy => exact absurd rfl h0
      | last hr => exact absurd ⟨hr, rfl⟩ hlast
      | reduce w hl hr => exact absurd rfl (hred w hl hr)
      | _ => rfl
    rw [hmem]
    have hcur : ∀ e < G.count, q < G.A.PE_size → s.mem (G.A.pe q) ((Loc.priv 0).elem e) =
        curVal G op m0 q (s.pc (G.A.pe q) + 1) e := by
      intro e he hn
      rw [h.cur q hn (by omega) e he, curVal_succ hv hn (by omega) hred]
    have hdata := h.exec_cur (fun _ _ => rfl) (fun _ _ _ => rfl) hcur fun hlow hpc => hlast ⟨hlow, hpc⟩
    exact ⟨hdata.pre, hdata.cur, hdata.cap, hdata.got, hdata.final⟩

theorem Data.deliver (h : Data G op m0 s) (hs : Sync G s) (hh : (machine G op).Hist s) {v t j : ℕ} {ins : Instr}
    (hp : (machine G op).prog v t = some ins) (hd : (machine G op).Deliverable s v t j) :
    Data G op m0 (mark ((machine G op).arrive s v t j ins) v t j) := by
  obtain ⟨hpc, hj, hnd, hcap, -⟩ := hd
  rw [partsAt_eq _ hp] at hj
  rw [readsAt_eq _ hp] at hcap
  have hdone : ∀ v' t' x, (mark ((machine G op).arrive s v t j ins) v t j).done v' t' x = true ↔
      (v' = v ∧ t' = t ∧ x = j) ∨ s.done v' t' x = true := by
    intro v' t' x
    rw [mark_done, arrive_done]
  obtain ⟨r, hr, rfl, hat⟩ := prog_cases hv hp
  cases hat with
  | data w hl =>
    obtain ⟨x, hx⟩ := Option.isSome_iff_exists.mp (hcap hj)
    refine h.deliver_data hv hs hh hl hj hpc hnd hx (by simp) (by simp) ?_ hdone
    simp only [mark_mem, arrive, hx]
  | ready w hl hlow =>
    refine h.deliver_sync hv (by simp) (by simp) rfl fun p w' x hl' hd => ?_
    rcases (hdone _ _ _).mp hd with ⟨h1, h2, -⟩ | hd
    · have h1 := G.A.pe_inj.mp h1
      subst h1
      exact absurd h2 (data_ne_first hv hl' hl hlow)
    · exact hd
  | ack w hl =>
    refine h.deliver_sync hv (by simp) (by simp) rfl fun p w' x hl' hd => ?_
    rcases (hdone _ _ _).mp hd with ⟨h1, h2, -⟩ | hd
    · have h1 := G.A.pe_inj.mp h1
      subst h1
      exact absurd h2 (data_ne_ack hv hl' hl)
    · exact hd
  | _ => exact absurd hj (by simp [Instr.parts, Args.reduceTarget])

/-! ## Runs -/

omit hv in
theorem Sync.init {c0 : ℕ → ℕ → ℤ} (h0 : ∀ r < G.A.PE_size, ∀ w < SHMEM_REDUCE_SYNC_SIZE, c0 (G.A.pe r) w = 0) :
    Sync G (OneSided.init c0 m0) := by
  refine ⟨?_, ?_, ?_⟩
  · intro r w _ _ hlt
    simp [OneSided.init] at hlt
  · intro r w _ hlt
    simp [OneSided.init] at hlt
  · intro r hr w hw
    have hval : wordVal G (OneSided.init c0 m0) r w = 0 := by simp [wordVal, OneSided.init]
    rw [hval, ite_self]
    exact h0 r hr w hw

omit hv in
theorem Data.init (op : α → α → α) (c0 : ℕ → ℕ → ℤ) : Data G op m0 (OneSided.init c0 m0) := by
  refine ⟨fun _ _ _ _ _ => rfl, ?_, ?_, ?_, ?_⟩
  · intro r _ h0
    simp [OneSided.init] at h0
  · intro r w _ j v hcap
    simp [OneSided.init] at hcap
  · intro r w _ j _ hd
    simp [OneSided.init] at hd
  · intro r _ hlt
    simp [OneSided.init] at hlt

/-- every step keeps words and data in order -/
theorem keeps : (machine G op).Keeps fun s => Sync G s ∧ Data G op m0 s where
  exec s v ins hh h hp he := ⟨h.1.exec hv hp he, h.2.exec hv h.1 hh hp⟩
  capture s v t j ins x hh h hp hpc hj hnone hsrc := by
    obtain ⟨hs, hd⟩ := h
    obtain ⟨r, hr, rfl, hat⟩ := prog_cases hv hp
    refine ⟨⟨hs.ready, hs.data, hs.word⟩, hd.pre, hd.cur, ?_, hd.got, hd.final⟩
    intro q w hl i y hy
    rcases (record_cap ..).mp hy with ⟨hqr, hpos, rfl, rfl⟩ | ⟨-, hy⟩
    · have hqr := G.A.pe_inj.mp hqr
      subst hqr hpos
      have hins := Args.codeAt_inj hv hat (.data w hl)
      subst hins
      simp only [source, Option.some.injEq] at hsrc
      rw [← hsrc]
      exact hd.capture hv hh hl hj hpc hnone
    · exact hd.cap q w hl i y hy
  deliver s v t j ins hh h hp hd := ⟨h.1.deliver hv hh hp hd, h.2.deliver hv h.1 hh hp hd⟩

/-! ## Result -/

/-- who has returned holds the last level of a rank below pow2_proc -/
theorem Data.returned (h : Data G op m0 s) (hs : Sync G s) (hh : (machine G op).Hist s) {r : ℕ} (hr : r < G.A.PE_size)
    (hpc : s.pc (G.A.pe r) = (G.opToAllRecdblSw (G.A.pe r)).length) : ∃ q < G.pow2Proc, ∀ e < G.count,
      s.mem (G.A.pe r) (.sym (G.target + e)) = level G op m0 G.log2Proc q e := by
  rw [Args.length_code hv] at hpc
  by_cases hlow : r < G.pow2Proc
  · refine ⟨r, hlow, fun e he => h.final r hlow ?_ e he⟩
    rw [hpc, Args.storePos, if_neg (by omega)]
    omega
  · have hl : G.Link r extraWord := Or.inr ⟨rfl, hr, Or.inl (by omega)⟩
    have h2 := Args.lt_two_mul_pow2Proc hv
    have hp : G.partner r extraWord < G.pow2Proc := by
      rw [Args.partner, if_pos rfl, if_pos (by omega)]
      omega
    have hwait := Args.waitPos_lt_storePos hv hl SHMEM_REDUCE_SYNC_SIZE
    refine ⟨_, hp, fun e he => ?_⟩
    have hgot := h.got r extraWord hl e he (hs.received hv hh hl (by omega) he) fun hlt => absurd hlt hlow
    rw [hgot]
    refine curVal_last hp ?_ e
    rw [Args.dataPos, if_pos rfl, if_neg (by omega)]
    omega

/-- all ranks below pow2_proc end with the same -/
theorem level_agree (hcomm : ∀ a b, op a b = op b a) {q q' : ℕ} (hq : q < G.pow2Proc) (hq' : q' < G.pow2Proc) (e : ℕ) :
    level G op m0 G.log2Proc q e = level G op m0 G.log2Proc q' e := by
  rw [Args.pow2Proc_eq hv] at hq hq'
  exact Reduction.doubling_congr hcomm _ q q' (by rw [Nat.div_eq_of_lt hq, Nat.div_eq_of_lt hq'])

/-- the ranks that go into the exchanges with rank r -/
theorem start_red (e : ℕ) {r : ℕ} (hr : r < G.pow2Proc) : Reduction.Red op (fun q => src G m0 q e)
    ((Finset.range G.A.PE_size).filter fun q => q % G.pow2Proc = r) (start G op m0 e r) := by
  have hle := Args.pow2Proc_le hv
  have hlt := Args.lt_two_mul_pow2Proc hv
  -- a rank is r modulo pow2_proc when it is r or r's extra peer
  have hmod : ∀ q < G.A.PE_size, q % G.pow2Proc = r ↔ q = r ∨ q = r + G.pow2Proc := by
    intro q hq
    rcases Nat.lt_or_ge q G.pow2Proc with h | h
    · rw [Nat.mod_eq_of_lt h]
      omega
    · rw [Nat.mod_eq_sub_mod h, Nat.mod_eq_of_lt (by omega)]
      omega
  unfold start
  split_ifs with hx
  · refine (Reduction.Red.join (.single r) (.single (r + G.pow2Proc)) ?_).congr ?_
    · rw [Finset.disjoint_singleton]
      omega
    · ext q
      simp only [Finset.mem_union, Finset.mem_singleton, Finset.mem_filter, Finset.mem_range]
      constructor
      · intro h
        have hq : q < G.A.PE_size := by omega
        exact ⟨hq, (hmod q hq).mpr h⟩
      · rintro ⟨hq, h⟩
        exact (hmod q hq).mp h
  · refine (Reduction.Red.single r).congr ?_
    ext q
    simp only [Finset.mem_singleton, Finset.mem_filter, Finset.mem_range]
    constructor
    · rintro rfl
      exact ⟨by omega, Nat.mod_eq_of_lt hr⟩
    · rintro ⟨hq, h⟩
      have := (hmod q hq).mp h
      omega

theorem level_eq_foldRanks (hassoc : ∀ a b c, op (op a b) c = op a (op b c)) (hcomm : ∀ a b, op a b = op b a) {q : ℕ}
    (hq : q < G.pow2Proc) (e : ℕ) :
    level G op m0 G.log2Proc q e = Reduction.foldRanks op (fun r => src G m0 r e) G.A.PE_size := by
  have hpow := Args.pow2Proc_eq hv
  have htwo := hv.two
  refine Reduction.Red.eq_foldRanks hassoc hcomm (by omega) ?_
  refine Reduction.doubling_all (k := G.log2Proc) (fun r hr => start_red hv e (hpow ▸ hr)) ?_ (hpow ▸ hq)
  intro x _
  rw [← hpow]
  exact Nat.mod_lt _ (by omega)

end

/-! ## Nothing is overwritten too early -/

section
variable {α : Type*} (G : Args) (op : α → α → α)

/-- PE q has waited for the data that v put at position t, and reduced them -/
def Used (s : St α) (v t q : ℕ) : Prop :=
  ∃ w u u', (machine G op).prog v (t + 3) = some (.putScalar w psDataReady q) ∧
    (machine G op).prog q u = some (.waitUntil w .EQ psDataReady) ∧
    (machine G op).prog q u' = some G.reduceTarget ∧ u < u' ∧ u' < s.pc q

variable {G op} {s : St α} (hv : G.Valid)
include hv

theorem used_or_same (hs : Sync G s) (hh : (machine G op).Hist s) {v t dst len q j v' t' dst' len' j' : ℕ} {b b' : Loc}
    (hp : (machine G op).prog v t = some (.putNb dst b len q)) (hd : (machine G op).Deliverable s v t j)
    (hp' : (machine G op).prog v' t' = some (.putNb dst' b' len' q)) (hd' : s.done v' t' j' = true) :
    (v' = v ∧ t' = t) ∨ Used G op s v' t' q := by
  obtain ⟨hpc, hj, hnd, -, -⟩ := hd
  have hpc' := (hh.doneIssued _ _ _ hd').1
  rw [partsAt_eq _ hp] at hj
  obtain ⟨p, hr, rfl, hat⟩ := prog_cases hv hp
  obtain ⟨p', hr', rfl, hat'⟩ := prog_cases hv hp'
  cases hat with
  | data w hl =>
    generalize hq : G.A.pe (G.partner p w) = pq at hat'
    cases hat' with
    | data w' hl' =>
      have hq := G.A.pe_inj.mp hq
      have hback := Args.partner_partner hv hl
      have hback' := Args.partner_partner hv hl'
      have hwin := hs.window hv hh hl hpc
      have hwin' := hs.window hv hh hl' hpc'
      have hlq := hl.partner hv
      have hlq' := hl'.partner hv
      rw [← hq] at hback' hwin' hlq'
      generalize G.partner p w = q at hq hback hback' hwin hwin' hlq hlq'
      by_cases hw : w' = w
      · subst hw
        have hpp : p' = p := by rw [← hback', hback]
        subst hpp
        exact Or.inl ⟨rfl, rfl⟩
      · right
        rw [← hq]
        -- the receiver is not past its wait
        have hnot : ¬ G.waitPos q w < s.pc (G.A.pe q) := by
          intro hlt
          have := hs.received hv hh hlq hlt hj
          rw [hback, hnd] at this
          exact absurd this (by decide)
        have hlow : q < G.pow2Proc := by
          rcases hlq.cases hv with ⟨-, -, h, -⟩ | ⟨h1, h, -⟩ | ⟨-, h, -⟩
          · exact h
          · rcases hlq'.cases hv with ⟨-, -, h', -⟩ | ⟨h2, -⟩ | ⟨-, h', -⟩
            · exact h'
            · exact absurd (h2.trans h1.symm) hw
            · exact h'
          · exact h
        have hred := Args.order_red hv hlq hlow
        have hred' := Args.order_red hv hlq' hlow
        have hqn := hlq.lt hv
        have hack : (machine G op).prog _ _ = some _ := prog_of hv hr' (.ack w' hl')
        rw [← hq] at hack
        rcases Args.order_links hv hlq hlq' (fun h => hw h.symm) hlow with hord | hord
        · omega
        · exact ⟨w', G.waitPos q w', G.redPos q w', hack, prog_of hv hqn (.waitData w' hlq'),
            prog_of hv hqn (.reduce w' hlq' hlow), hred'.1, by omega⟩

/-- data arrive before the result is copied to the target -/
theorem before_last (hs : Sync G s) (hh : (machine G op).Hist s) {v t dst len q j u : ℕ} {b : Loc}
    (hp : (machine G op).prog v t = some (.putNb dst b len q)) (hd : (machine G op).Deliverable s v t j)
    (hu : (machine G op).prog q u = some (.memcpy (.sym G.target) (.priv 0) G.count)) : s.pc q ≤ u := by
  obtain ⟨hpc, hj, hnd, -, -⟩ := hd
  rw [partsAt_eq _ hp] at hj
  obtain ⟨p, hr, rfl, hat⟩ := prog_cases hv hp
  cases hat with
  | data w hl =>
    obtain ⟨q, hq, hqe, hat⟩ := prog_cases hv hu
    have hqe := G.A.pe_inj.mp hqe
    have hlq := hl.partner hv
    have hback := Args.partner_partner hv hl
    subst hqe
    cases hat with
    | last hlow =>
      by_contra hlt
      have hord := Args.order_red hv hlq hlow
      have := hs.received hv hh hlq (by omega) hj
      rw [hback, hnd] at this
      exact absurd this (by decide)

/-- a word is overwritten when its value has been seen -/
theorem word_seen (hs : Sync G s) (hh : (machine G op).Hist s) {v t w q : ℕ} {x : ℤ}
    (hp : (machine G op).prog v t = some (.putScalar w x q)) (hd : (machine G op).Deliverable s v t 0) :
    s.cell q w = 0 ∨ ∃ u < s.pc q, (machine G op).prog q u = some (.waitUntil w .EQ (s.cell q w)) := by
  obtain ⟨hpc, -, hnd, -, -⟩ := hd
  obtain ⟨p, hr, rfl, hat⟩ := prog_cases hv hp
  -- the word as long as the data have not arrived
  have hword : ∀ w, (hl : G.Link p w) → s.done (G.A.pe p) (G.dataPos p w + 3) 0 = false →
      s.cell (G.A.pe (G.partner p w)) w =
        if p < G.partner p w ∧ s.done (G.A.pe p) (G.firstPos p w) 0 = true then psTargetReady else 0 := by
    intro w hl hack
    have hlq := hl.partner hv
    have hback := Args.partner_partner hv hl
    have hnc := hs.not_cleared hv hlq (by rw [hback]; exact hack) w
    rw [hs.word _ (hlq.lt hv) w (Link_lt_size hv hlq), if_neg hnc, wordVal, if_pos hlq, hback, hack]
    simp
  cases hat with
  | ready w hl hlow =>
    left
    have hack : s.done (G.A.pe p) (G.dataPos p w + 3) 0 = false := by
      by_contra hd
      have hlt := (hh.doneIssued _ _ _ (by simpa using hd)).1
      have := (hs.seen hv hh hl hlow (by omega)).2
      rw [hnd] at this
      exact absurd this (by decide)
    rw [hword w hl hack, hnd]
    simp
  | ack w hl =>
    rw [hword w hl hnd]
    split_ifs with hlow
    · obtain ⟨hlow, -⟩ := hlow
      have hlq := hl.partner hv
      have hback := Args.partner_partner hv hl
      refine Or.inr ⟨_, (hs.seen hv hh hl hlow (by omega)).1, ?_⟩
      exact prog_of hv (hlq.lt hv) (.waitReady w hlq (by rw [hback]; exact hlow))
    · exact Or.inl rfl

end

/-- **The recursive-doubling reduction is correct.** For every active set of two or more PEs, whether or not their number
is a power of two, every source and target, commutative op, and under every schedule: members that have returned hold
the same result, the reduction of all sources when op is associative, and their pSync is zero; data arrive in a target
only when what arrived before has been reduced and before the result is copied there; and a pSync word is overwritten
only when its value has been waited for. -/
theorem recdbl_correct {α : Type*} (G : Args) (hv : G.Valid) (op : α → α → α) (hcomm : ∀ a b, op a b = op b a)
    (c0 : ℕ → ℕ → ℤ) (m0 : ℕ → Loc → α)
    (h0 : ∀ r < G.A.PE_size, ∀ w < SHMEM_REDUCE_SYNC_SIZE, c0 (G.A.pe r) w = 0) (ops : List Op) :
    let s := (machine G op).run (init c0 m0) ops
    (∀ r < G.A.PE_size, s.pc (G.A.pe r) = (G.opToAllRecdblSw (G.A.pe r)).length →
      ((∀ a b c, op (op a b) c = op a (op b c)) → ∀ e < G.count, s.mem (G.A.pe r) (.sym (G.target + e)) =
        Reduction.foldRanks op (fun q => m0 (G.A.pe q) (.sym (G.source + e))) G.A.PE_size) ∧
      (∀ r' < G.A.PE_size, s.pc (G.A.pe r') = (G.opToAllRecdblSw (G.A.pe r')).length → ∀ e < G.count,
        s.mem (G.A.pe r) (.sym (G.target + e)) = s.mem (G.A.pe r') (.sym (G.target + e))) ∧
      (∀ w < SHMEM_REDUCE_SYNC_SIZE, s.cell (G.A.pe r) w = 0)) ∧
    (∀ v t j dst b len q, (machine G op).prog v t = some (.putNb dst b len q) → (machine G op).Deliverable s v t j →
      (∀ v' t' j' dst' b' len', (machine G op).prog v' t' = some (.putNb dst' b' len' q) → s.done v' t' j' = true →
        (v' = v ∧ t' = t) ∨ Used G op s v' t' q) ∧
      ∀ u, (machine G op).prog q u = some (.memcpy (.sym G.target) (.priv 0) G.count) → s.pc q ≤ u) ∧
    (∀ v t w x q, (machine G op).prog v t = some (.putScalar w x q) → (machine G op).Deliverable s v t 0 →
      s.cell q w = 0 ∨ ∃ u < s.pc q, (machine G op).prog q u = some (.waitUntil w .EQ (s.cell q w))) := by
  intro s
  have hkeeps : (machine G op).Keeps fun s => Sync G s ∧ Data G op m0 s := keeps hv
  obtain ⟨hh, hs, hd⟩ := hkeeps.run (hist_init _ c0 m0) ⟨Sync.init h0, Data.init op c0⟩ ops
  refine ⟨fun r hr hpc => ⟨?_, ?_, ?_⟩, fun v t j dst b len q hp hd => ⟨?_, ?_⟩, ?_⟩
  · intro hassoc e he
    obtain ⟨q, hq, hmem⟩ := hd.returned hv hs hh hr hpc
    exact (hmem e he).trans (level_eq_foldRanks hv hassoc hcomm hq e)
  · intro r' hr' hpc' e he
    obtain ⟨q, hq, hmem⟩ := hd.returned hv hs hh hr hpc
    obtain ⟨q', hq', hmem'⟩ := hd.returned hv hs hh hr' hpc'
    calc s.mem (G.A.pe r) (.sym (G.target + e))
        = level G op m0 G.log2Proc q e := hmem e he
      _ = level G op m0 G.log2Proc q' e := level_agree hv hcomm hq hq' e
      _ = s.mem (G.A.pe r') (.sym (G.target + e)) := (hmem' e he).symm
  · intro w hw
    rw [Args.length_code hv] at hpc
    rw [hs.word r hr w hw, if_pos]
    rw [hpc]
    unfold Args.storePos
    omega
  · intro v' t' j' dst' b' len' hp' hd'
    exact used_or_same hv hs hh hp hd hp' hd'
  · intro u hu
    exact before_last hv hs hh hp hd hu
  · intro v t w x q hp hd
    exact word_seen hv hs hh hp hd

/-- three PEs reduce two elements; source and target overlap in one -/
def three : Args := ⟨⟨0, 1, 3, 3, Nat.one_pos, ActiveSet.three_pos, by decide⟩, 1, 0, 2⟩

/-- PE 2 sends its data to PE 0, PEs 0 and 1 exchange theirs, and PE 2 gets the result and returns -/
def threeSched : List Op :=
  ([.exec 0, .exec 0, .deliver 0 1 0, .exec 2, .exec 2, .exec 2, .capture 2 2 0, .capture 2 2 1, .exec 2, .exec 2, .exec 2,
    .deliver 2 2 1, .deliver 2 2 0, .deliver 2 5 0, .exec 0, .exec 0, .exec 0, .deliver 0 4 0,
    .exec 1, .exec 1, .exec 1, .capture 1 2 0, .capture 1 2 1, .exec 1, .exec 1, .exec 1,
    .deliver 1 2 0, .deliver 1 2 1, .deliver 1 5 0, .exec 0, .exec 0, .capture 0 6 0, .capture 0 6 1, .exec 0, .exec 0,
    .exec 0, .exec 0, .exec 0, .capture 0 11 0, .capture 0 11 1, .exec 0, .exec 0, .exec 0,
    .deliver 0 11 0, .deliver 0 11 1, .deliver 0 14 0] : List Op) ++ List.replicate 36 (.exec 2)

/-- the values of PE p: 10 p, 10 p + 1, … -/
def threeMem (p : ℕ) : Loc → ℤ
  | .sym a => 10 * p + a
  | .priv _ => 0

set_option maxRecDepth 2000 in
theorem recdbl_correct_three :
    ((machine three (· + ·)).run (init (fun _ _ => 0) threeMem) threeSched).pc 2 = (three.opToAllRecdblSw 2).length ∧
    ((machine three (· + ·)).run (init (fun _ _ => 0) threeMem) threeSched).mem 2 (.sym 2) = 33 := by
  have hpc : ((machine three (· + ·)).run (init (fun _ _ => 0) threeMem) threeSched).pc 2 =
      (three.opToAllRecdblSw 2).length := by decide +kernel
  have h := ((recdbl_correct three ⟨by decide, by decide, by decide⟩ (· + ·) add_comm (fun _ _ => 0) threeMem
    (fun _ _ _ _ => rfl) threeSched).1 2 (by decide) hpc).1 add_assoc 1 (by decide)
  exact ⟨hpc, h.trans (by decide)⟩

end SandiaShmem.Collectives.RecDbl
