/-
The reduction in software of two arrays (`shmem_internal_reduce_local` in `src/shmem_internal_op.h`), which the ring and
the recursive doubling algorithm call on what they have received.

The count of the callers is a `size_t`. The function takes it as an `int`, and each of the loops that `FUNC_OP_CREATE`
makes has an `int` counter, so that a count of 2^31 or more arrives as a smaller or a negative number.

- `dtypeCase`: the operations of each datatype.
- `opLoop_apply`: what a loop leaves in the array.
- `combines_iff`: every element is combined, if the elements behind the truncated count are not changed by it.
- `forall_combines_iff`: for all arrays that is when the count is below 2^31.
-/
import SandiaShmem.Core.CInt

namespace SandiaShmem.Collectives.ReduceLocal

open CInt

/-! ## Datatypes and operations -/

/-- `shm_internal_op_t` -/
inductive Op where
  | BAND | BOR | BXOR | MIN | MAX | SUM | PROD
deriving DecidableEq, Repr

/-- `shm_internal_datatype_t` -/
inductive Datatype where
  | SIGNED_BYTE | SHORT | INT | LONG | LONG_LONG | FORTRAN_INTEGER | INT8 | INT16 | INT32 | INT64 | PTRDIFF_T
  | UCHAR | USHORT | UINT | ULONG | ULONG_LONG | UINT8 | UINT16 | UINT32 | UINT64 | SIZE_T
  | FLOAT | DOUBLE | LONG_DOUBLE | FLOAT_COMPLEX | DOUBLE_COMPLEX
deriving DecidableEq, Repr

/-- the floating-point types of the machine; nothing is said about their arithmetic -/
structure Floats where
  Val : Datatype → Type
  lt : ∀ d, Val d → Val d → Bool
  add : ∀ d, Val d → Val d → Val d
  mul : ∀ d, Val d → Val d → Val d

/-- the elements of an array of a datatype with a case in `shmem_internal_reduce_local` -/
def Datatype.Elem (F : Floats) : Datatype → Type
  | .UCHAR => BitVec 8
  | .SHORT | .USHORT => BitVec 16
  | .INT32 | .INT | .UINT => BitVec 32
  | .INT64 | .LONG | .ULONG | .LONG_LONG | .ULONG_LONG => BitVec 64
  | d => F.Val d

/-- `REDUCE_LOCAL_DTYPE_CASE_INT`; `lt` is the comparison of the signed or the unsigned type -/
def caseInt {w : ℕ} (lt : BitVec w → BitVec w → Bool) : Op → Option (BitVec w → BitVec w → BitVec w)
  | .MIN => some fun a b => if lt a b then a else b
  | .MAX => some fun a b => if lt b a then a else b
  | .SUM => some fun a b => a + b
  | .PROD => some fun a b => a * b
  | .BAND => some fun a b => a &&& b
  | .BOR => some fun a b => a ||| b
  | .BXOR => some fun a b => a ^^^ b

/-- `REDUCE_LOCAL_DTYPE_CASE_AND_OR_XOR` -/
def caseAndOrXor {w : ℕ} : Op → Option (BitVec w → BitVec w → BitVec w)
  | .BAND => some fun a b => a &&& b
  | .BOR => some fun a b => a ||| b
  | .BXOR => some fun a b => a ^^^ b
  | _ => none

/-- `REDUCE_LOCAL_DTYPE_CASE_FP` -/
def caseFp (F : Floats) (d : Datatype) : Op → Option (F.Val d → F.Val d → F.Val d)
  | .MIN => some fun a b => if F.lt d a b then a else b
  | .MAX => some fun a b => if F.lt d b a then a else b
  | .SUM => some (F.add d)
  | .PROD => some (F.mul d)
  | _ => none

/-- `REDUCE_LOCAL_DTYPE_CASE_CPLX` -/
def caseCplx (F : Floats) (d : Datatype) : Op → Option (F.Val d → F.Val d → F.Val d)
  | .SUM => some (F.add d)
  | .PROD => some (F.mul d)
  | _ => none

/-- the operation on two elements, for the datatypes and operations that have a case -/
def dtypeCase (F : Floats) : (d : Datatype) → Op → Option (d.Elem F → d.Elem F → d.Elem F)
  | .INT32 => caseInt BitVec.slt
  | .INT64 => caseInt BitVec.slt
  | .UCHAR => caseAndOrXor
  | .SHORT => caseInt BitVec.slt
  | .USHORT => caseInt BitVec.ult
  | .INT => caseInt BitVec.slt
  | .UINT => caseInt BitVec.ult
  | .LONG => caseInt BitVec.slt
  | .ULONG => caseInt BitVec.ult
  | .LONG_LONG => caseInt BitVec.slt
  | .ULONG_LONG => caseInt BitVec.ult
  | .FLOAT => caseFp F .FLOAT
  | .DOUBLE => caseFp F .DOUBLE
  | .LONG_DOUBLE => caseFp F .LONG_DOUBLE
  | .FLOAT_COMPLEX => caseCplx F .FLOAT_COMPLEX
  | .DOUBLE_COMPLEX => caseCplx F .DOUBLE_COMPLEX
  | _ => fun _ => none

/-! ## The loops -/

/-- the functions of `FUNC_OP_CREATE`: the loop from 0 on while `i < count`, on arrays that have nothing in common -/
def opLoop {α : Type} (opCalc : α → α → α) (src out : ℕ → α) (count : ℤ) : ℕ → α :=
  (List.range count.toNat).foldl (fun out i => Function.update out i (opCalc (out i) (src i))) out

/-- `shmem_internal_reduce_local`; `none` stands for its RAISE_ERROR -/
def reduceLocal (F : Floats) (op : Op) (datatype : Datatype) (count : ℤ) (src inout : ℕ → datatype.Elem F) :
    Option (ℕ → datatype.Elem F) :=
  (dtypeCase F datatype op).map fun opCalc => opLoop opCalc src inout count

/-- the call: the `size_t` of the caller becomes the `int` of the parameter -/
def callReduceLocal (F : Floats) (op : Op) (datatype : Datatype) (count : ℕ) (src inout : ℕ → datatype.Elem F) :
    Option (ℕ → datatype.Elem F) :=
  reduceLocal F op datatype (wrap 32 count) src inout

/-- a loop of n rounds has combined the first n elements -/
theorem foldl_update_apply {α : Type} (opCalc : α → α → α) (src out : ℕ → α) (n i : ℕ) :
    (List.range n).foldl (fun out i => Function.update out i (opCalc (out i) (src i))) out i =
      if i < n then opCalc (out i) (src i) else out i := by
  induction n with
  | zero => simp
  | succ n ih =>
    rw [List.range_succ, List.foldl_append, List.foldl_cons, List.foldl_nil]
    by_cases hin : i = n
    · subst hin
      rw [Function.update_self, ih, if_neg (by omega), if_pos (by omega)]
    · rw [Function.update_of_ne hin, ih]
      by_cases hlt : i < n
      · rw [if_pos hlt, if_pos (by omega)]
      · rw [if_neg hlt, if_neg (by omega)]

theorem opLoop_apply {α : Type} (opCalc : α → α → α) (src out : ℕ → α) (count : ℤ) (i : ℕ) :
    opLoop opCalc src out count i = if (i : ℤ) < count then opCalc (out i) (src i) else out i := by
  rw [opLoop, foldl_update_apply]
  congr 1
  rw [eq_iff_iff, Int.lt_toNat]

/-! ## Which elements are combined -/

section
variable (F : Floats) {op : Op} {datatype : Datatype} (opCalc : datatype.Elem F → datatype.Elem F → datatype.Elem F)

/-- the first `count` elements are combined and nothing else is changed -/
def Combines (op : Op) (datatype : Datatype) (opCalc : datatype.Elem F → datatype.Elem F → datatype.Elem F)
    (count : ℕ) (src inout : ℕ → datatype.Elem F) : Prop :=
  ∃ out, callReduceLocal F op datatype count src inout = some out ∧
    ∀ i, out i = if i < count then opCalc (inout i) (src i) else inout i

/-- the elements from the truncated count on are left as they are by the operation -/
def TailKept (datatype : Datatype) (opCalc : datatype.Elem F → datatype.Elem F → datatype.Elem F) (count : ℕ)
    (src inout : ℕ → datatype.Elem F) : Prop :=
  ∀ i < count, wrap 32 count ≤ i → opCalc (inout i) (src i) = inout i

theorem combines_iff (hcase : dtypeCase F datatype op = some opCalc) (count : ℕ) (src inout : ℕ → datatype.Elem F) :
    Combines F op datatype opCalc count src inout ↔ TailKept F datatype opCalc count src inout := by
  have hle : wrap 32 (count : ℤ) ≤ count := wrap_le (by omega) (by omega)
  have hcall : callReduceLocal F op datatype count src inout = some (opLoop opCalc src inout (wrap 32 count)) := by
    rw [callReduceLocal, reduceLocal, hcase, Option.map_some]
  unfold Combines TailKept
  rw [hcall]
  constructor
  · rintro ⟨out, hout, hall⟩ i hi hge
    obtain rfl := Option.some.inj hout
    have hi' := hall i
    rw [opLoop_apply, if_neg (by omega), if_pos hi] at hi'
    exact hi'.symm
  · intro hkept
    refine ⟨_, rfl, fun i => ?_⟩
    rw [opLoop_apply]
    by_cases hlt : (i : ℤ) < wrap 32 count
    · rw [if_pos hlt, if_pos (by omega)]
    · rw [if_neg hlt]
      split_ifs with hi
      · exact (hkept i hi (not_lt.mp hlt)).symm
      · rfl

/-- with an operation that changes something -/
theorem forall_combines_iff (hcase : dtypeCase F datatype op = some opCalc) (hchange : ∃ a b, opCalc a b ≠ a)
    (count : ℕ) : (∀ src inout, Combines F op datatype opCalc count src inout) ↔ count < 2 ^ 31 := by
  simp only [combines_iff F opCalc hcase]
  constructor
  · intro hall
    obtain ⟨a, b, hne⟩ := hchange
    by_contra hge
    have hlt : wrap 32 (count : ℤ) < 2 ^ 31 := (fits_wrap (by omega) _).2
    exact hne (hall (fun _ => b) (fun _ => a) (count - 1) (by omega) (by omega))
  · intro hlt src inout i hi hge
    rw [wrap_of_fits (by omega) ⟨by omega, by omega⟩] at hge
    omega

end

/-- a machine whose floating-point types are left out -/
def noFloats : Floats := ⟨fun _ => Unit, fun _ _ _ => false, fun _ _ _ => (), fun _ _ _ => ()⟩

/-- `and` of two bytes -/
def andBytes : Datatype.UCHAR.Elem noFloats → Datatype.UCHAR.Elem noFloats → Datatype.UCHAR.Elem noFloats :=
  fun a b : BitVec 8 => a &&& b

/-- an array of one byte -/
def bytes (b : BitVec 8) : ℕ → Datatype.UCHAR.Elem noFloats := fun _ => b

/-- two bytes are combined -/
theorem combines_iff_bytes :
    Combines noFloats .BAND .UCHAR andBytes 2 (bytes 0) (bytes 1) ↔
      TailKept noFloats .UCHAR andBytes 2 (bytes 0) (bytes 1) :=
  combines_iff noFloats andBytes rfl 2 _ _

/-- of 2^31 bytes none is -/
theorem bytes_skipped : ¬ Combines noFloats .BAND .UCHAR andBytes (2 ^ 31) (bytes 0) (bytes 1) := by
  rintro ⟨out, hout, hall⟩
  have hcount : wrap 32 ((2 ^ 31 : ℕ) : ℤ) = -2 ^ 31 := by decide
  rw [callReduceLocal, reduceLocal, hcount] at hout
  have hout : opLoop andBytes (bytes 0) (bytes 1) (-2 ^ 31) = out := Option.some.inj hout
  have h0 := hall 0
  rw [← hout, opLoop_apply, if_neg (by decide), if_pos (by decide)] at h0
  exact absurd h0 (show ¬ ((1 : BitVec 8) = 1 &&& 0) by decide)

end SandiaShmem.Collectives.ReduceLocal
